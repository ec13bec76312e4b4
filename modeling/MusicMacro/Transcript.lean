import MusicMacro.Options.Argument
import MusicMacro.Production
import MusicMacro.Text.Separated

/-!
# Transcripts

What the program shows of a run: an exit status, a text on its output, and messages on its error
channel, which are the notices that were asked for and the error.

* `Folder.run` — the run of the program in a folder.
* `Transcript.lines` — the lines that the messages come to; a message may hold several.
-/

namespace MusicMacro

/-- The exit statuses. -/
inductive Status
  | success
  | failure
  /-- The arguments are no options. -/
  | usage
  /-- The run broke off. -/
  | brokenOff
deriving DecidableEq, Repr

/-- The number of a status. -/
def Status.code : Status → Nat
  | success => 0
  | failure => 1
  | usage => 2
  | brokenOff => 101

/-- The status of arguments that are no options. -/
def UsageError.status : UsageError → Status
  | helpRequested => .success
  | _ => .usage

/-- What a run shows. -/
structure Transcript where
  status : Status
  output : String
  messages : List String
deriving DecidableEq, Repr

/-- The lines of a message. A line may end with a carriage return, too. -/
def messageLines (message : String) : List String :=
  (separated '\n' message.toList).map fun line =>
    String.ofList (if line.getLast? = some '\r' then line.dropLast else line)

/-- The lines on the error channel. -/
def Transcript.lines (t : Transcript) : List String := t.messages.flatMap messageLines

/-- The notices that are shown. -/
def shownMessages (verbosity : Nat) (notices : List (Notice Float Float32)) : List String :=
  (notices.filter (·.isShown verbosity)).map Notice.line

/-- The output of a production that ends at a time. -/
def successText (path : String) (finish : Float) : String :=
  s!"wrote {path} ({Double.fixedText 3 finish} sec)\n"

/-- The message for an error. -/
def failureMessage (e : ProductionError Float) : String := "error: " ++ e.text

/-- The status of a production that fails. -/
def ProductionError.status (e : ProductionError Float) : Status :=
  if e.breaksOff then .brokenOff else .failure

/-- What the end of a production shows. -/
def Account.ending (o : Options Float) (a : Account Float Float32 Float) : Transcript :=
  let shown := shownMessages o.verbosity a.notices
  match a.result with
  | .ok finish => ⟨.success, successText o.output finish, shown⟩
  | .error e => ⟨e.status, "", shown ++ [failureMessage e]⟩

/-- What a run comes to: the arguments are no options, or they ask for a production. -/
inductive Run
  | refused (e : UsageError)
  | produced (o : Options Float) (a : Account Float Float32 Float)

/-- The run of the program in a folder, and the folder afterwards. -/
def Folder.run (f : Folder) (args : List String) : Run × Folder :=
  match Options.ofArguments args with
  | .error e => (.refused e, f)
  | .ok o =>
    let (account, after) := f.produce o
    (.produced o account, after)

end MusicMacro
