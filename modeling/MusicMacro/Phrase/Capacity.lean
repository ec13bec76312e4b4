import MusicMacro.Phrase

/-!
# The capacity of a buffer

A buffer of samples, four bytes each, holds less than 2^63 bytes. A phrase that needs more cannot
be mixed at all.
-/

namespace MusicMacro

/-- The greatest number of samples in a buffer, 2^61 - 1. -/
def bufferCapacity : Nat := 0x1fffffffffffffff

variable {τ σ : Type} [Scalar τ] [Scalar σ] [Circular σ] [Narrow τ σ]

omit [Scalar σ] [Circular σ] [Narrow τ σ] in
/-- Whether a tone is held for more samples than a buffer holds. -/
def Tone.isTooLong (t : Tone τ σ) (rate : Nat) : Bool := bufferCapacity < t.heldSamples rate

/-- The samples of a tone, unless it is too long. -/
def Tone.samples? (t : Tone τ σ) (rate : Nat) : Option (Array σ) :=
  if t.isTooLong rate then none else some (t.samples rate)

namespace Phrase

/-- Whether mixing a tone needs more than a buffer. -/
def toneExceeds (t : Tone τ σ) (start : τ) (cutOff : Option τ) (rate : Nat) : Bool :=
  let first := Scalar.sampleIndex start rate
  if t.isTooLong rate then true
  else if first + t.heldSamples rate + t.releaseBound rate ≤ bufferCapacity then false
  else
    let stop := stopIndex first (t.samples rate).size cutOff rate
    first < stop && bufferCapacity < stop

mutual

/-- Whether mixing a phrase needs more than a buffer. -/
def exceeds (p : Phrase τ σ) (start : τ) (cutOff : Option τ) (rate : Nat) : Bool :=
  if isCut start cutOff then false
  else
    match p with
    | tone t => toneExceeds t start cutOff rate
    | silence _ => false
    | sequence ps => sequenceExceeds ps start cutOff rate
    | parallel ps => parallelExceeds ps start cutOff rate

/-- Whether mixing phrases one after the other needs more than a buffer. -/
def sequenceExceeds (ps : List (Phrase τ σ)) (start : τ) (cutOff : Option τ) (rate : Nat) : Bool :=
  match ps with
  | [] => false
  | p :: ps => p.exceeds start cutOff rate || sequenceExceeds ps (start + p.duration) cutOff rate

/-- Whether mixing phrases that start together needs more than a buffer. -/
def parallelExceeds (ps : List (Phrase τ σ)) (start : τ) (cutOff : Option τ) (rate : Nat) : Bool :=
  match ps with
  | [] => false
  | p :: ps => p.exceeds start cutOff rate || parallelExceeds ps start cutOff rate

end

/-- Mixes a phrase into a buffer, unless that needs more than a buffer. -/
def mixInto? (p : Phrase τ σ) (start : τ) (cutOff : Option τ) (rate : Nat) (buffer : Array σ) :
    Option (Array σ) :=
  if p.exceeds start cutOff rate then none else some (p.mixInto start cutOff rate buffer)

end Phrase

end MusicMacro
