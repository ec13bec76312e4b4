import MusicMacro.Dialect
import MusicMacro.Setup
import MusicMacro.Sound.Oscillator

/-!
# Options

What a production is asked for: the music, how it is spelt, the sounds, and the file. A sound is
chosen by the name of a waveform or, where there is none of that name, by the path of a recording.

* `SoundChoice.ofText_name` — the name of a waveform chooses the waveform.
-/

namespace MusicMacro

/-- The choice of a sound. -/
inductive SoundChoice
  | waveform (w : Waveform)
  | file (path : String)
deriving DecidableEq, Repr

/-- The choice of the sound of a drum. -/
structure DrumChoice where
  token : List Char
  sound : SoundChoice
deriving DecidableEq, Repr

/-- Why a text is no choice of a sound. -/
inductive ChoiceError
  | noSound
  /-- No equals sign stands between a token and a sound. -/
  | noEquals (text : String)
  | noToken (text : String)
deriving DecidableEq, Repr

/-- The words of an error. -/
def ChoiceError.text : ChoiceError → String
  | noSound => "empty instrument"
  | noEquals text => "expected TOKEN=INSTRUMENT: " ++ text
  | noToken text => "empty drum token: " ++ text

/-- Reads the choice of a sound. -/
def SoundChoice.ofText (text : String) : Except ChoiceError SoundChoice :=
  if text.isEmpty then .error .noSound
  else
    match Waveform.ofName? text with
    | some w => .ok (.waveform w)
    | none => .ok (.file text)

theorem SoundChoice.ofText_name (w : Waveform) : ofText w.name = .ok (.waveform w) := by
  have h : w.name.isEmpty = false := by cases w <;> decide +kernel
  simp [ofText, h, Waveform.ofName?_name]

/-- Reads the choice of the sound of a drum: a token, an equals sign and a sound. -/
def DrumChoice.ofText (text : String) : Except ChoiceError DrumChoice :=
  let token := text.toList.takeWhile (· ≠ '=')
  match text.toList.dropWhile (· ≠ '=') with
  | [] => .error (.noEquals text)
  | _ :: sound =>
    if token.isEmpty then .error (.noToken text)
    else (SoundChoice.ofText (String.ofList sound)).map (⟨token, ·⟩)

/-- What a production is asked for. -/
structure Options (τ : Type) where
  /-- The submissions, each with all its voices. -/
  chunks : List String
  /-- The path of the file. -/
  output : String
  /-- Samples in a second. -/
  rate : Nat
  dialect : Dialect
  drums : List DrumChoice
  instruments : List SoundChoice
  maxQueued : Ceiling τ
  /-- How often more notices were asked for. -/
  verbosity : Nat

namespace Options

variable {τ : Type} [Scalar τ]

/-- The options where nothing but the music is given. -/
def default (chunks : List String) : Options τ where
  chunks := chunks
  output := "out.wav"
  rate := 44100
  dialect := .standard
  drums := []
  instruments := []
  maxQueued := .seconds ((60 : Nat) : τ)
  verbosity := 0

omit [Scalar τ] in
/-- The choices of all sounds, those of the drums first. -/
def sounds (o : Options τ) : List SoundChoice := o.drums.map (·.sound) ++ o.instruments

end Options

end MusicMacro
