import MusicMacro.Folder
import MusicMacro.Notice
import MusicMacro.Options
import MusicMacro.WaveFile

/-!
# Arrangements

Options choose sounds; an arrangement has them at hand, and with them the setup of a sequencer.
Recordings are read one after the other, those of the drums first, and the first one that cannot be
read ends the arrangement.

* `Options.arrange` — the setup, or the first file that gives no sound.
-/

namespace MusicMacro

/-- A way to read the file at a path. -/
abbrev Reader := String → Except FileError Bytes

/-! ## Sounds -/

/-- The choice of a sound, and what it gave. -/
structure Loading (σ : Type) where
  choice : SoundChoice
  result : Except FileError (Instrument σ)

namespace Loading

variable {σ : Type} [Scalar σ] [Dyadic σ]

/-- Reads a recording. -/
def recording (read : Reader) (path : String) : Except FileError (Recording σ) := do
  (WaveFile.decode (← read path) none).mapError .contents

/-- Follows the choice of a sound. -/
def ofChoice (read : Reader) (choice : SoundChoice) : Loading σ where
  choice := choice
  result :=
    match choice with
    | .waveform w => .ok (.oscillator w)
    | .file path => (recording read path).map .recording

omit [Scalar σ] [Dyadic σ] in
/-- What there is to say about a recording that has been read. -/
def notice? {τ : Type} (l : Loading σ) : Option (Notice τ σ) :=
  match l.choice, l.result with
  | .file path, .ok (.recording r) => some (.loaded path r.channels r.rate r.frames)
  | _, _ => none

omit [Scalar σ] [Dyadic σ] in
/-- What there is to say before the first file that gives no sound. -/
def notices {τ : Type} (ls : List (Loading σ)) : List (Notice τ σ) :=
  (ls.takeWhile (·.result.isOk)).filterMap notice?

end Loading

/-! ## Setups -/

/-- The drums where none are chosen: waveforms for the most common tokens of the dialect. -/
def Dialect.drums : Dialect → List (List Char × Waveform)
  | standard =>
    [(['b'], .sine), (['s'], .noise), (['h'], .noise), (['c'], .noise), (['m'], .triangle)]
  | japanese => [(['ド'], .sine), (['タ'], .noise), (['ツ'], .noise)]

/-- A setup, unless a sound is missing, and what there is to say. -/
structure Arrangement (τ σ : Type) where
  setup : Except FileError (Setup τ σ)
  notices : List (Notice τ σ)

namespace Options

variable {τ σ : Type}

/-- The drums of the options; their sounds are given. -/
def kit (o : Options τ) (sounds : List (Instrument σ)) : Percussion.Kit (Instrument σ) :=
  if o.drums.isEmpty then o.dialect.drums.map fun (token, w) => (.literal token, .oscillator w)
  else o.drums.zipWith (fun d sound => (.literal d.token, sound)) sounds

/-- The instruments of the options; their sounds are given. -/
def instrumentsFrom (sounds : List (Instrument σ)) : List (Instrument σ) :=
  if sounds.isEmpty then [.default] else sounds

/-- The setup of a sequencer; the sounds of drums and instruments are given. -/
def setup [Scalar τ] (o : Options τ) (drums instruments : List (Instrument σ)) : Setup τ σ :=
  { (Setup.default : Setup τ σ) with
    maxQueued := o.maxQueued
    melody := o.dialect.melody
    percussion := o.dialect.percussion
    kit := o.kit drums
    instruments := instrumentsFrom instruments }

/-- What there is to say about a setup. -/
def setupNotices (s : Setup τ σ) : List (Notice τ σ) :=
  [.instruments (s.instruments.map Instrument.toText),
    .drums (s.kit.map fun (_, sound) => sound.toText)]

/-- Reads the sounds of the options. -/
def arrange [Scalar τ] [Scalar σ] [Dyadic σ] (read : Reader) (o : Options τ) : Arrangement τ σ :=
  let drums := o.drums.map fun d => (Loading.ofChoice read d.sound : Loading σ)
  let instruments := o.instruments.map (Loading.ofChoice read)
  let setup : Except FileError (Setup τ σ) := do
    let drumSounds ← drums.mapM (·.result)
    let sounds ← instruments.mapM (·.result)
    return o.setup drumSounds sounds
  { setup := setup
    notices := Loading.notices (drums ++ instruments) ++
      match setup with
      | .ok s => setupNotices s
      | .error _ => [] }

end Options

end MusicMacro
