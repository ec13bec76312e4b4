import MusicMacro.Transcript

/-!
# The program

Reads the recordings that the options ask for, produces, and writes the file. Everything is decided
by `Options.ofArguments`, `Options.produce` and `Production.conclude`; this module reads, writes and
prints.
-/

namespace MusicMacro

/-- The text for those who ask for help. -/
def helpText : String :=
  "Renders music that is written in macro letters into a wave file.

Usage: musicmacro [OPTIONS] <CHUNKS>...

Arguments:
  <CHUNKS>...  Music, one argument for each submission, with bars between its voices

Options:
  -o, --output <PATH>            The file [default: out.wav]
  -r, --sample-rate <RATE>       Samples in a second [default: 44100]
  -d, --dialect <DIALECT>        standard or japanese [default: standard]
      --drum <TOKEN=INSTRUMENT>  A drum: its token, and a waveform or the path of a wave file
      --wave <INSTRUMENT>        An instrument: a waveform or the path of a wave file
      --max-queued <SECONDS>     How much may be queued before a submission waits [default: 60]
  -v, --verbose...               Show more
  -h, --help                     Show this text
"

/-- The error that the system reports. -/
def FileError.ofSystem : IO.Error → FileError
  | .noFileOrDirectory .. => .notFound
  | e => .system (toString e)

/-- Reads a file. -/
def readFile (path : String) : IO (Except FileError Bytes) := do
  try
    return .ok (← IO.FS.readBinFile path).data
  catch e =>
    return .error (.ofSystem e)

/-- Writes a file. -/
def writeFile (path : String) (contents : Bytes) : IO (Except FileError Unit) := do
  try
    IO.FS.writeBinFile path ⟨contents⟩
    return .ok ()
  catch e =>
    return .error (.ofSystem e)

/-- Reads the recordings that options ask for. -/
def readSounds (o : Options Float) : IO Reader := do
  let files ← o.sounds.filterMapM fun
    | .waveform _ => return none
    | .file path => return some (path, ← readFile path)
  return fun path => (files.lookup path).getD (.error .notFound)

/-- Produces what options ask for. -/
def runOptions (o : Options Float) : IO (Account Float Float32 Float) := do
  let account : Account Float Float32 (Production Float Float32) := o.produce (← readSounds o)
  match account.result with
  | .error e => return ⟨.error e, account.notices⟩
  | .ok p =>
    let ending := p.conclude (← writeFile o.output p.file)
    return ⟨ending.result, account.notices ++ ending.notices⟩

end MusicMacro

open MusicMacro in
/-- Runs the program. -/
def main (args : List String) : IO UInt32 := do
  match Options.ofArguments args with
  | .error e =>
    if e = .helpRequested then IO.print helpText
    else IO.eprintln ("error: " ++ e.text)
    return e.status.code.toUInt32
  | .ok o =>
    let transcript := (← runOptions o).ending o
    transcript.messages.forM IO.eprintln
    IO.print transcript.output
    return transcript.status.code.toUInt32
