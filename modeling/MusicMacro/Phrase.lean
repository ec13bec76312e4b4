import MusicMacro.Sound.Tone

/-!
# Phrases

A phrase is a tree of tones and silences, one after the other or together. It has a duration, to
which the release of its last tones does not count, and it can be mixed into a buffer of samples,
all of it or only what lies before a cut-off.

* `mixInto_of_isCut` — a phrase that starts at or after the cut-off leaves the buffer alone.
* `getElem?_addFrom` — adding samples changes the samples at their places and no others.
-/

namespace MusicMacro

/-- Music that is made of tones. -/
inductive Phrase (τ σ : Type)
  | tone (t : Tone τ σ)
  | silence (duration : τ)
  /-- One after the other. -/
  | sequence (ps : List (Phrase τ σ))
  /-- All at once. -/
  | parallel (ps : List (Phrase τ σ))

namespace Phrase

variable {τ σ : Type} [Scalar τ]

/-! ## Duration -/

mutual

/-- The duration in seconds. The empty sum is negative zero, which changes no number to which it
is added. -/
def duration : Phrase τ σ → τ
  | tone t => t.duration
  | silence d => d
  | sequence ps => total (-0) ps
  | parallel ps => longest 0 ps

/-- The sum of the durations, after a time that has passed already. -/
def total (passed : τ) : List (Phrase τ σ) → τ
  | [] => passed
  | p :: ps => total (passed + p.duration) ps

/-- The longest duration, and no less than a time that is known. -/
def longest (known : τ) : List (Phrase τ σ) → τ
  | [] => known
  | p :: ps => longest (Scalar.larger known p.duration) ps

end

/-! ## Mixing -/

/-- Adds samples to the places of a buffer from `i` on. The first sample belongs to the place
`first`, and no place at or after `stop` is changed. -/
def addFrom [Add σ] (samples : Array σ) (first stop i : Nat) (buffer : Array σ) : Array σ :=
  if i < stop then
    if h : i - first < samples.size then
      addFrom samples first stop (i + 1) (buffer.modify i (· + samples[i - first]))
    else buffer
  else buffer
termination_by stop - i

omit [Scalar τ] in
theorem size_addFrom [Add σ] (samples : Array σ) (first stop i : Nat) (buffer : Array σ) :
    (addFrom samples first stop i buffer).size = buffer.size := by
  fun_induction addFrom samples first stop i buffer with
  | case1 _ _ _ _ ih => simpa using ih
  | case2 => rfl
  | case3 => rfl

omit [Scalar τ] in
theorem getElem?_addFrom [Add σ] {samples : Array σ} {first stop i : Nat} {buffer : Array σ}
    (hi : first ≤ i) (j : Nat) :
    (addFrom samples first stop i buffer)[j]? =
      if i ≤ j ∧ j < stop then
        buffer[j]?.map fun x => (samples[j - first]?).elim x (x + ·)
      else buffer[j]? := by
  fun_induction addFrom samples first stop i buffer with
  | case1 i buffer hs h ih =>
    rw [ih (by omega), Array.getElem?_modify]
    by_cases hij : i = j
    · subst hij
      rw [if_neg (by omega)]
      simp [hs, h]
    · by_cases hj : i ≤ j ∧ j < stop
      · have : i + 1 ≤ j ∧ j < stop := by omega
        simp [this, hj, hij]
      · rw [if_neg (by omega), if_neg hj, if_neg hij]
  | case2 i buffer hs h =>
    split
    · next hj =>
      have : samples[j - first]? = none := Array.getElem?_eq_none (by omega)
      simp [this]
    · rfl
  | case3 i buffer hs =>
    have : ¬(i ≤ j ∧ j < stop) := by omega
    simp [this]

/-- Adds samples to a buffer from the place `first` on, but none at or after the place `stop`.
Where the buffer is too short, zeros extend it. -/
def addAt [Add σ] [Zero σ] (buffer samples : Array σ) (first stop : Nat) : Array σ :=
  if stop ≤ first then buffer
  else addFrom samples first stop first (buffer ++ Array.replicate (stop - buffer.size) 0)

/-- Whether a time lies at or after the cut-off. Without one, only a time that is infinite does. -/
def isCut (time : τ) (cutOff : Option τ) : Bool :=
  cutOff.elim (!Scalar.isFinite time && decide (0 ≤ time)) fun c => decide (c ≤ time)

/-- The place at which a tone of a number of samples stops, when its first sample is at the place
`first`: after its last sample or at the cut-off. -/
def stopIndex (first size : Nat) (cutOff : Option τ) (rate : Nat) : Nat :=
  let after := Scalar.cap τ (first + size)
  cutOff.elim after fun c => min after (Scalar.sampleIndex c rate)

variable [Scalar σ] [Circular σ] [Narrow τ σ]

/-- Adds a tone that starts at a time. -/
def addTone (t : Tone τ σ) (start : τ) (cutOff : Option τ) (rate : Nat) (buffer : Array σ) :
    Array σ :=
  let first := Scalar.sampleIndex start rate
  let samples := t.samples rate
  addAt buffer samples first (stopIndex first samples.size cutOff rate)

mutual

/-- Mixes a phrase that starts at a time into a buffer of samples. Nothing is written at or after
the cut-off. -/
def mixInto (p : Phrase τ σ) (start : τ) (cutOff : Option τ) (rate : Nat) (buffer : Array σ) :
    Array σ :=
  if isCut start cutOff then buffer
  else
    match p with
    | tone t => addTone t start cutOff rate buffer
    | silence _ => buffer
    | sequence ps => mixSequence ps start cutOff rate buffer
    | parallel ps => mixParallel ps start cutOff rate buffer

/-- Mixes phrases one after the other. -/
def mixSequence (ps : List (Phrase τ σ)) (start : τ) (cutOff : Option τ) (rate : Nat)
    (buffer : Array σ) : Array σ :=
  match ps with
  | [] => buffer
  | p :: ps =>
    mixSequence ps (start + p.duration) cutOff rate (p.mixInto start cutOff rate buffer)

/-- Mixes phrases that start together. -/
def mixParallel (ps : List (Phrase τ σ)) (start : τ) (cutOff : Option τ) (rate : Nat)
    (buffer : Array σ) : Array σ :=
  match ps with
  | [] => buffer
  | p :: ps => mixParallel ps start cutOff rate (p.mixInto start cutOff rate buffer)

end

theorem mixInto_of_isCut {start : τ} {cutOff : Option τ} (h : isCut start cutOff)
    (p : Phrase τ σ) (rate : Nat) (buffer : Array σ) :
    p.mixInto start cutOff rate buffer = buffer := by
  rw [mixInto.eq_def, if_pos h]

end Phrase

end MusicMacro
