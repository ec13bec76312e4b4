import MusicMacro.Number.Numeral
import MusicMacro.Options

/-!
# Arguments

How options are written on a command line. A switch has a long name or a letter; letters may stand
together behind one dash. A parameter is a switch with a value, which stands in the same argument
or is the next one. Two dashes end the switches.

A value that is an argument of its own is looked at when the next argument shows that nothing more
belongs to it. So an unknown switch is reported before a bad value in front of it, but a value in
the same argument as its parameter is looked at once.

* `Options.ofArguments` — reads the arguments.
-/

namespace MusicMacro

/-- Why arguments are no options. -/
inductive UsageError
  /-- No error: help was asked for. -/
  | helpRequested
  | unknownArgument
  /-- A switch that has no value was given one. -/
  | unneededValue
  | missingValue
  | emptyPath
  | unknownDialect
  | badNumber
  | badChoice (e : ChoiceError)
  /-- A parameter that may be given once was given again. -/
  | repeated
  /-- There is no music. -/
  | noChunk
deriving DecidableEq, Repr

/-- The words of an error. -/
def UsageError.text : UsageError → String
  | helpRequested => "help requested"
  | unknownArgument => "unexpected argument"
  | unneededValue => "unexpected value for a switch"
  | missingValue => "a value is required"
  | emptyPath => "the path is empty"
  | unknownDialect => "the dialect is neither standard nor japanese"
  | badNumber => "not a number, or out of range"
  | badChoice e => e.text
  | repeated => "the argument cannot be used multiple times"
  | noChunk => "no music was given"

namespace Options

/-! ## Switches -/

/-- A switch with a value. -/
inductive Parameter
  | output
  | rate
  | dialect
  | drum
  | instrument
  | maxQueued
deriving DecidableEq, Repr

/-- What may stand behind dashes. -/
inductive Switch
  | parameter (p : Parameter)
  | verbose
  | help
deriving DecidableEq, Repr

/-- The switch with a long name. -/
def Switch.ofName? (name : List Char) : Option Switch :=
  match String.ofList name with
  | "output" => some (.parameter .output)
  | "sample-rate" => some (.parameter .rate)
  | "dialect" => some (.parameter .dialect)
  | "drum" => some (.parameter .drum)
  | "wave" => some (.parameter .instrument)
  | "max-queued" => some (.parameter .maxQueued)
  | "verbose" => some .verbose
  | "help" => some .help
  | _ => none

/-- The switch with a letter. -/
def Switch.ofLetter? : Char → Option Switch
  | 'o' => some (.parameter .output)
  | 'r' => some (.parameter .rate)
  | 'd' => some (.parameter .dialect)
  | 'v' => some .verbose
  | 'h' => some .help
  | _ => none

/-- The forms of an argument. -/
inductive Argument
  /-- Two dashes and nothing else. -/
  | endOfSwitches
  | long (name : List Char) (value : Option (List Char))
  | letters (cs : List Char)
  /-- No switch. One dash alone is none. -/
  | plain
deriving DecidableEq, Repr

/-- The form of an argument. -/
def Argument.ofText : List Char → Argument
  | ['-', '-'] => .endOfSwitches
  | '-' :: '-' :: cs => .long (cs.takeWhile (· ≠ '=')) (cs.dropWhile (· ≠ '=')).tail?
  | ['-'] => .plain
  | '-' :: cs => .letters cs
  | _ => .plain

/-! ## Values -/

/-- What has been given so far. -/
structure Draft where
  chunks : List String
  output : Option String
  rate : Option Nat
  dialect : Option Dialect
  drums : List DrumChoice
  instruments : List SoundChoice
  maxQueued : Option (Ceiling Float)
  verbosity : Nat

/-- The path of the output. -/
def readPath (value : String) : Except UsageError String :=
  if value.isEmpty then .error .emptyPath else .ok value

/-- The greatest number of samples in a second, 2^32 - 1. -/
def greatestRate : Nat := 0xffffffff

/-- A number of samples in a second. -/
def readRate (value : String) : Except UsageError Nat :=
  match Numeral.whole? value.toList with
  | some n => if 0 ≤ n ∧ n ≤ greatestRate then .ok n.toNat else .error .badNumber
  | none => .error .badNumber

/-- A dialect by its name. -/
def readDialect : String → Except UsageError Dialect
  | "standard" => .ok .standard
  | "japanese" => .ok .japanese
  | _ => .error .unknownDialect

/-- A number of seconds; infinity is no ceiling at all. -/
def readCeiling (value : String) : Except UsageError (Ceiling Float) :=
  match Double.ofText? value.toList with
  | some x => .ok (if x == 1 / 0 then .unbounded else .seconds x)
  | none => .error .badNumber

namespace Draft

/-- Nothing has been given. -/
def empty : Draft := ⟨[], none, none, none, [], [], none, 0⟩

/-- The value of a parameter that may be given once. -/
def once {α : Type} (before : Option α) (value : Except UsageError α) :
    Except UsageError (Option α) :=
  if before.isSome then .error .repeated else value.map some

/-- Takes a parameter with its value. -/
def take (d : Draft) (p : Parameter) (value : String) : Except UsageError Draft :=
  match p with
  | .output => do return { d with output := ← once d.output (readPath value) }
  | .rate => do return { d with rate := ← once d.rate (readRate value) }
  | .dialect => do return { d with dialect := ← once d.dialect (readDialect value) }
  | .drum => do
    return { d with drums := d.drums ++ [← (DrumChoice.ofText value).mapError .badChoice] }
  | .instrument => do
    return {
      d with instruments := d.instruments ++ [← (SoundChoice.ofText value).mapError .badChoice] }
  | .maxQueued => do return { d with maxQueued := ← once d.maxQueued (readCeiling value) }

/-- The greatest number of times that more notices can be asked for. -/
def greatestVerbosity : Nat := 255

/-- Asks for more notices. -/
def askMore (d : Draft) : Draft := { d with verbosity := min (d.verbosity + 1) greatestVerbosity }

/-- Takes some music. -/
def addChunk (d : Draft) (chunk : String) : Draft := { d with chunks := d.chunks ++ [chunk] }

/-- The options, with the usual values for what has not been given. -/
def finish (d : Draft) : Except UsageError (Options Float) :=
  if d.chunks.isEmpty then .error .noChunk
  else
    let o : Options Float := Options.default d.chunks
    .ok { o with
      output := d.output.getD o.output
      rate := d.rate.getD o.rate
      dialect := d.dialect.getD o.dialect
      drums := d.drums
      instruments := d.instruments
      maxQueued := d.maxQueued.getD o.maxQueued
      verbosity := d.verbosity }

end Draft

/-! ## Reading -/

/-- How far the arguments have been read: a parameter whose value has not been looked at is still
pending, perhaps without a value. -/
structure Progress where
  draft : Draft
  pending : Option (Parameter × Option String)

namespace Progress

/-- Looks at the value of the parameter that is pending. -/
def settle (s : Progress) : Except UsageError Draft :=
  match s.pending with
  | none => .ok s.draft
  | some (_, none) => .error .missingValue
  | some (p, some value) => s.draft.take p value

/-- Nothing is pending. -/
def settled (d : Draft) : Progress := ⟨d, none⟩

/-- Takes a parameter whose value stands in the same argument. -/
def attach (s : Progress) (p : Parameter) (value : List Char) : Except UsageError Progress := do
  return settled (← (← s.settle).take p (String.ofList value))

/-- Takes a parameter whose value is still to come. -/
def await (s : Progress) (p : Parameter) : Except UsageError Progress := do
  return ⟨← s.settle, some (p, none)⟩

/-- Takes the switch for more notices. -/
def askMore (s : Progress) : Except UsageError Progress := do
  return settled (← s.settle).askMore

/-- Takes the switch for help. -/
def askHelp (s : Progress) : Except UsageError Progress := do
  let _ ← s.settle
  throw .helpRequested

/-- Takes an argument with a long name. -/
def takeLong (s : Progress) (name : List Char) (value : Option (List Char)) :
    Except UsageError Progress :=
  match Switch.ofName? name, value with
  | none, _ => .error .unknownArgument
  | some (.parameter p), some value => s.attach p value
  | some (.parameter p), none => s.await p
  | some _, some _ => .error .unneededValue
  | some .verbose, none => s.askMore
  | some .help, none => s.askHelp

/-- Takes letters that stand together. What follows the letter of a parameter is its value, with
or without an equals sign. -/
def takeLetters (s : Progress) : List Char → Except UsageError Progress
  | [] => .ok s
  | c :: cs =>
    match Switch.ofLetter? c with
    | none => .error .unknownArgument
    | some .verbose => do takeLetters (← s.askMore) cs
    | some .help => s.askHelp
    | some (.parameter p) =>
      match cs with
      | [] => s.await p
      | '=' :: value => s.attach p value
      | value => s.attach p value

/-- Takes an argument that is no switch: a value that is waited for, or music. -/
def takePlain (s : Progress) (arg : String) : Except UsageError Progress :=
  match s.pending with
  | some (p, none) => .ok { s with pending := some (p, some arg) }
  | _ => do return settled ((← s.settle).addChunk arg)

/-- Takes an argument behind the end of the switches. -/
def takeChunk (s : Progress) (arg : String) : Except UsageError Progress := do
  return settled ((← s.settle).addChunk arg)

end Progress

/-- Reads arguments from some progress on. -/
def readArguments (s : Progress) : List String → Except UsageError Draft
  | [] => s.settle
  | arg :: args =>
    match Argument.ofText arg.toList with
    | .endOfSwitches => do (← args.foldlM Progress.takeChunk s).settle
    | .long name value => do readArguments (← s.takeLong name value) args
    | .letters cs => do readArguments (← s.takeLetters cs) args
    | .plain => do readArguments (← s.takePlain arg) args

/-- Reads arguments. -/
def ofArguments (args : List String) : Except UsageError (Options Float) := do
  (← readArguments (.settled .empty) args).finish

end Options

end MusicMacro
