import MusicMacro.Arrangement
import MusicMacro.Sequencer
import MusicMacro.Text.Separated

/-!
# Productions

A production submits its chunks one after the other and writes what was scheduled to a wave file.
A chunk holds the fragments of all its voices, with bars between them.

* `Options.produce` — the samples, or why there are none; nothing has been written yet.
* `Production.conclude` — the end of a production, when its file has been written or not.
* `Folder.produce` — both, in a folder.
-/

namespace MusicMacro

/-- Why a production fails. -/
inductive ProductionError (τ : Type)
  | file (e : FileError)
  | setup (e : SetupError τ)
  | submission (e : SubmitError τ)
  /-- The samples need more than a buffer. -/
  | tooLong
deriving DecidableEq, Repr

/-- Errors that leave nothing to go on with: a file with a broken structure, and samples that no
buffer can hold. -/
def ProductionError.breaksOff {τ : Type} : ProductionError τ → Bool
  | file (.contents .malformed) | tooLong => true
  | _ => false

/-- The words of what is wrong with a setup. -/
def SetupError.text : SetupError Float → String
  | noInstrument => "at least one instrument is required"
  | badCeiling seconds => "invalid max queued seconds: " ++ Double.text seconds
  | zeroTempo => "tempo must be positive"
  | badAmplitude amplitude => "amplitude out of range: " ++ Double.text amplitude

/-- The words for a phrase that cannot be scheduled. -/
def Unschedulable.text (u : Unschedulable Float) : String :=
  s!"cannot schedule a line of {Double.text u.duration} sec at {Double.text u.start} sec"

/-- The words of an error. -/
def ProductionError.text : ProductionError Float → String
  | file e => "file error: " ++ e.text
  | setup e => "invalid configuration: " ++ e.text
  | submission .cancelled => "cancelled"
  | submission (.unschedulable u) => "render error: " ++ u.text
  | submission (.refused reason) => "render error: " ++ reason
  | tooLong => "capacity overflow"

/-! ## Chunks -/

/-- The character between the voices of a chunk. -/
def voiceBar : Char := '|'

/-- The fragments of a chunk. There is always at least one. -/
def splitVoices (chunk : List Char) : List (List Char) := separated voiceBar chunk

variable {τ σ : Type} [Scalar τ] [Scalar σ] [Tuned τ]

/-- A sequencer that has taken chunks, unless one of them failed, and what there is to say. -/
structure Recital (τ σ : Type) where
  result : Except (SubmitError τ) (Sequencer τ σ)
  notices : List (Notice τ σ)

/-- Submits chunks one after the other. The first of them has the index `i`. -/
def Sequencer.recite (s : Sequencer τ σ) (i : Nat) : List (List Char) → Recital τ σ
  | [] => ⟨.ok s, []⟩
  | chunk :: chunks =>
    let voices := splitVoices chunk
    let report := s.submit voices
    let notices :=
      .chunk i (voices.map fun v => String.ofList (trimBlanks v)) :: report.notices
    match report.result with
    | .error e => ⟨.error e, notices⟩
    | .ok submission =>
      let rest := report.sequencer.recite (i + 1) chunks
      ⟨rest.result,
        notices ++ .chunkSubmitted i voices.length submission.start submission.finish ::
          rest.notices⟩

/-! ## Files -/

/-- What is to be written to a file. -/
structure Production (τ σ : Type) where
  samples : Array σ
  rate : Nat
  /-- The time at which everything has ended. -/
  finish : τ

/-- The bytes of the file; it has one channel. -/
def Production.file (p : Production τ σ) : Bytes := WaveFile.encode p.samples 1 p.rate

/-- A result, unless something went wrong, and what there is to say. -/
structure Account (τ σ α : Type) where
  result : Except (ProductionError τ) α
  notices : List (Notice τ σ)

omit [Scalar τ] [Tuned τ] in
/-- The end of a production, when its file has been written or not. -/
def Production.conclude (p : Production τ σ) (written : Except FileError Unit) : Account τ σ τ :=
  match written with
  | .error e => ⟨.error (.file e), []⟩
  | .ok () =>
    let peak := Peak.ofSamples p.samples
    ⟨.ok p.finish, [.peak peak.amplitude peak.index]⟩

variable [Circular σ] [Narrow τ σ]

omit [Tuned τ] in
/-- Renders what has been scheduled, for a file at a path. -/
def Timeline.produce (t : Timeline τ σ) (rate : Nat) (path : String) :
    Account τ σ (Production τ σ) :=
  match t.render? rate with
  | none => ⟨.error .tooLong, []⟩
  | some samples => ⟨.ok ⟨samples, rate, t.finish⟩, [.writing samples.size path]⟩

/-- Plays the chunks of the options with a setup. -/
def Options.perform (o : Options τ) (setup : Setup τ σ) : Account τ σ (Production τ σ) :=
  match Sequencer.create setup with
  | .error e => ⟨.error (.setup e), []⟩
  | .ok s =>
    let recital := s.recite 0 (o.chunks.map String.toList)
    match recital.result with
    | .error e => ⟨.error (.submission e), recital.notices⟩
    | .ok s =>
      let account := s.timeline.produce o.rate o.output
      ⟨account.result, recital.notices ++ account.notices⟩

/-- Reads the sounds of the options and plays the chunks. -/
def Options.produce [Dyadic σ] (read : Reader) (o : Options τ) : Account τ σ (Production τ σ) :=
  let arrangement : Arrangement τ σ := o.arrange read
  match arrangement.setup with
  | .error e => ⟨.error (.file e), arrangement.notices⟩
  | .ok setup =>
    let account := o.perform setup
    ⟨account.result, arrangement.notices ++ account.notices⟩

/-- A production in a folder: what it came to, and the folder afterwards. -/
def Folder.produce [Dyadic σ] (f : Folder) (o : Options τ) : Account τ σ τ × Folder :=
  let account : Account τ σ (Production τ σ) := o.produce f.read
  match account.result with
  | .error e => (⟨.error e, account.notices⟩, f)
  | .ok p =>
    let written := f.write o.output p.file
    let ending := p.conclude (written.map fun _ => ())
    (⟨ending.result, account.notices ++ ending.notices⟩, written.toOption.getD f)

end MusicMacro
