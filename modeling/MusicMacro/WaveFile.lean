import MusicMacro.Sound.Recording
import MusicMacro.WaveFile.Coding
import MusicMacro.WaveFile.Loudness

/-!
# Wave files

Samples are written as integers of 16 bits behind a header of 44 bytes. What is read may have any
of the codings, and other chunks beside the format and the samples.

* `size_encode` — the number of bytes that are written.
-/

namespace MusicMacro

namespace WaveFile

/-! ## Writing -/

/-- The bytes before the samples, when the samples have a number of bytes. -/
def preamble (channels rate count : Nat) : List UInt8 :=
  let number := LittleEndian.bytes
  name "RIFF" ++ number 4 (36 + count) ++ name "WAVE" ++
    name "fmt " ++ number 4 16 ++ number 2 Coding.integerCode ++ number 2 channels ++
    number 4 rate ++ number 4 (rate * 2 * channels) ++ number 2 (2 * channels) ++ number 2 16 ++
    name "data" ++ number 4 count

/-- Writes a sample behind what has been written. -/
def writeSample {σ : Type} [Scalar σ] (gain : σ) (file : Bytes) (x : σ) : Bytes :=
  file ++ (LittleEndian.signedBytes 2 (quantise gain x)).toArray

/-- The file that holds samples of some channels in turn. -/
def encode {σ : Type} [Scalar σ] (samples : Array σ) (channels rate : Nat) : Bytes :=
  let gain := (Peak.ofSamples samples).gain
  samples.foldl (writeSample gain) (preamble channels rate (2 * samples.size)).toArray

theorem length_preamble (channels rate count : Nat) :
    (preamble channels rate count).length = 44 := by
  simp [preamble, LittleEndian.length_bytes, name]

theorem size_encode {σ : Type} [Scalar σ] (samples : Array σ) (channels rate : Nat) :
    (encode samples channels rate).size = 44 + 2 * samples.size := by
  have h (gain : σ) (xs : List σ) (file : Bytes) :
      (xs.foldl (writeSample gain) file).size = file.size + 2 * xs.length := by
    induction xs generalizing file with
    | nil => simp
    | cons x xs ih =>
      rw [List.foldl_cons, ih]
      simp [writeSample, LittleEndian.length_signedBytes]
      omega
  simp [encode, ← Array.foldl_toList, h, length_preamble]

/-! ## Reading -/

/-- What the format chunk tells. -/
structure Format where
  code : Nat
  channels : Nat
  rate : Nat
  /-- The number of bits of a sample. -/
  depth : Nat
deriving DecidableEq, Repr

/-- Reads the contents of the format chunk. -/
def Format.ofBytes? (bs : Bytes) : Option Format :=
  if bs.size < 16 then none
  else do
    return {
      code := ← numberAt? bs 0 2
      channels := ← numberAt? bs 2 2
      rate := ← numberAt? bs 4 4
      depth := ← numberAt? bs 14 2 }

/-- The format of a file whose chunks end at a place. -/
def format (file : Bytes) (stop : Nat) : Except WaveFileError Format := do
  match Format.ofBytes? (← contents file (name "fmt ") stop .noFormat) with
  | none => throw .shortFormat
  | some f =>
    if f.code = Coding.integerCode ∨ f.code = Coding.floatCode then return f
    else throw .unknownCoding

/-- The recording in a file. The format is looked for first. -/
def decode {σ : Type} [Scalar σ] [Dyadic σ] (file : Bytes) (master : Option σ) :
    Except WaveFileError (Recording σ) := do
  let stop ← body file
  let f ← format file stop
  let data ← contents file (name "data") stop .noData
  let coding ← Coding.ofCode f.code f.depth
  return .ofData f.channels f.rate (coding.values data) master

end WaveFile

end MusicMacro
