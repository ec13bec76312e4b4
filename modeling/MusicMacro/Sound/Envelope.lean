import MusicMacro.Number.Scalar

/-!
# Envelopes

An envelope shapes the level of a tone: it rises to one in the attack, falls to the sustain level
in the decay, stays there as long as the tone is held, and falls to zero in the release.

* `Contour.noteOn`, `Contour.noteOff` — the start of the attack, and of the release.
* `Contour.next` — one sample further.
-/

namespace MusicMacro

/-- The times of an envelope in seconds and its sustain level. -/
structure Envelope (σ : Type) where
  attack : σ
  decay : σ
  sustain : σ
  release : σ
deriving DecidableEq, Repr

namespace Envelope

variable {σ : Type} [Scalar σ]

/-- A tenth. -/
def tenth : σ := 1 / ((10 : Nat) : σ)

/-- The envelope of an oscillator. -/
def oscillator : Envelope σ := ⟨0, tenth, 1 / ((2 : Nat) : σ), tenth⟩

/-- The envelope of a recording, which has dynamics of its own. -/
def recording : Envelope σ := ⟨0, tenth, 1, 0⟩

/-- The envelope of every drum. -/
def drum : Envelope σ := recording

end Envelope

/-- The stages of an envelope. -/
inductive Stage
  | idle
  | attack
  | decay
  | sustain
  | release
deriving DecidableEq, Repr

/-- A stage with the level that has been reached. -/
structure Contour (σ : Type) where
  stage : Stage
  level : σ
deriving Repr

namespace Contour

variable {σ : Type} [Scalar σ]

/-- Before the first tone. -/
def start : Contour σ := ⟨.idle, 0⟩

/-- Starts a tone from level zero. -/
def noteOn (_ : Contour σ) : Contour σ := ⟨.attack, 0⟩

/-- Ends a tone; there is none if the contour is idle. -/
def noteOff (c : Contour σ) : Contour σ :=
  if c.stage = .idle then c else { c with stage := .release }

/-- The part of the whole range that one sample takes when the range takes a time in seconds. A
time that is not positive takes one sample. -/
def slope (rate seconds : σ) : σ := if seconds ≤ 0 then 1 else 1 / rate / seconds

/-- The contour one sample later; its level is that of the sample. -/
def next (e : Envelope σ) (rate : σ) (c : Contour σ) : Contour σ :=
  match c.stage with
  | .idle | .sustain => c
  | .attack =>
    let level := c.level + slope rate e.attack
    if 1 ≤ level then ⟨.decay, 1⟩ else ⟨.attack, level⟩
  | .decay =>
    let level := c.level - slope rate e.decay
    if level ≤ e.sustain then ⟨.sustain, e.sustain⟩ else ⟨.decay, level⟩
  | .release =>
    let level := c.level - slope rate e.release
    if level ≤ 0 then ⟨.idle, 0⟩ else ⟨.release, level⟩

/-- Whether no tone sounds. -/
def isIdle (c : Contour σ) : Bool := c.stage = .idle

end Contour

end MusicMacro
