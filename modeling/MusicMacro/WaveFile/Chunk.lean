import MusicMacro.Number.LittleEndian

/-!
# Chunks

A wave file is a form: twelve bytes that hold the number of bytes to come and the type of the form,
and then chunks. A chunk has a header of eight bytes, with its name and the number of bytes of its
contents, and starts at an even distance from the start of the file. Chunks end where the next
header would start at or after the end that the form announces; nothing is asked of the bytes
between the two.

* `WaveFile.body` — checks the type of the form.
* `WaveFile.contents` — the contents of the first chunk with a name.
-/

namespace MusicMacro

/-- The contents of a file. -/
abbrev Bytes := Array UInt8

/-- What is wrong with a wave file. -/
inductive WaveFileError
  /-- The file ends within its first twelve bytes or within a chunk that is needed. -/
  | truncated
  /-- The structure is broken: a header is cut off, or a name is no text. -/
  | malformed
  /-- The form has another type. -/
  | wrongForm
  /-- No chunk tells the format of the samples. -/
  | noFormat
  /-- The chunk that tells the format is too short. -/
  | shortFormat
  /-- The samples are neither integers nor floating-point numbers. -/
  | unknownCoding
  /-- There are no integers of that many bits. -/
  | badIntegerDepth
  /-- There are no floating-point numbers of that many bits. -/
  | badFloatDepth
  /-- No chunk holds samples. -/
  | noData
deriving DecidableEq, Repr

/-- The words of an error. -/
def WaveFileError.text : WaveFileError → String
  | truncated => "failed to fill whole buffer"
  | malformed => "broken structure"
  | wrongForm => "RIFF file type not \"WAVE\""
  | noFormat => "RIFF data is missing the \"fmt \" chunk, aborting"
  | shortFormat => "Slice is smaller than the minimum-required 16 bytes"
  | unknownCoding => "Unsupported data format, data is not in uncompressed PCM format, aborting"
  | badIntegerDepth => "Unsupported PCM bit depth"
  | badFloatDepth => "Unsupported IEEE Float bit depth"
  | noData => "Could not parse audio data"

namespace WaveFile

/-! ## Names and numbers -/

/-- The bytes of a name that is written in ASCII. -/
def name (s : String) : List UInt8 := s.toList.map fun c => UInt8.ofNat c.toNat

/-- Whether bytes are text in UTF-8. -/
def isText (bs : List UInt8) : Bool := ByteArray.validateUTF8 ⟨bs.toArray⟩

/-- Some bytes from a place on, if the file has as many. -/
def slice? (file : Bytes) (place count : Nat) : Option Bytes :=
  if place + count ≤ file.size then some (file.extract place (place + count)) else none

/-- The bytes of a name at a place; a name has four of them. -/
def nameAt? (file : Bytes) (place : Nat) : Option (List UInt8) :=
  (slice? file place 4).map Array.toList

/-- The number of some width at a place. -/
def numberAt? (file : Bytes) (place width : Nat) : Option Nat :=
  (slice? file place width).map fun bs => LittleEndian.value bs.toList

/-! ## The form and its chunks -/

/-- The number of bytes before the first chunk. -/
def formSize : Nat := 12

/-- The number of bytes before the contents of a chunk. -/
def headerSize : Nat := 8

/-- The end that the form announces, if the form has the right type. -/
def body (file : Bytes) : Except WaveFileError Nat :=
  match numberAt? file 4 4, nameAt? file 8 with
  | some count, some form =>
    if ¬ isText form then .error .malformed
    else if form = name "WAVE" then .ok (4 + count)
    else .error .wrongForm
  | _, _ => .error .truncated

/-- The name of a chunk and the number of bytes of its contents. -/
def header? (file : Bytes) (place : Nat) : Option (List UInt8 × Nat) := do
  return (← nameAt? file place, ← numberAt? file (place + 4) 4)

/-- The place after a chunk. -/
def after (place count : Nat) : Nat := place + headerSize + count + count % 2

/-- The place and the number of bytes of the contents of the first chunk with a name, among those
between a place and an end. -/
def find (file : Bytes) (wanted : List UInt8) (stop place : Nat) :
    Except WaveFileError (Option (Nat × Nat)) :=
  if place < stop then
    match header? file place with
    | none => .error .malformed
    | some (found, count) =>
      if ¬ isText found then .error .malformed
      else if found = wanted then .ok (some (place + headerSize, count))
      else find file wanted stop (after place count)
  else .ok none
termination_by stop - place
decreasing_by simp only [after, headerSize]; omega

/-- The contents of the first chunk with a name. Where there is none, the error is given. -/
def contents (file : Bytes) (wanted : List UInt8) (stop : Nat) (missing : WaveFileError) :
    Except WaveFileError Bytes := do
  match ← find file wanted stop formSize with
  | none => throw missing
  | some (place, count) =>
    match slice? file place count with
    | none => throw .truncated
    | some bs => return bs

end WaveFile

end MusicMacro
