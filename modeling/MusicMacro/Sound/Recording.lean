import MusicMacro.Number.Scalar

/-!
# Recordings

A recording holds samples of several channels in turn. It is played as one channel, the mean of
them all, from its start to its end and then never again. At its master frequency and its own
rate it sounds as it was recorded; a higher frequency plays it faster.

* `Recording.index_lt` — every sample that the mean looks at lies in the data.
* `Recording.next_of_finished` — a recording that has ended stays silent.
-/

namespace MusicMacro

/-- Samples of one or more channels. -/
structure Recording (σ : Type) where
  channels : Nat
  /-- Frames in a second. -/
  rate : Nat
  /-- The samples of the first frame, channel by channel, then those of the second. -/
  data : Array σ
  /-- The frequency at which the recording sounds as it was recorded. -/
  master : σ
  channels_pos : 0 < channels
deriving Repr

namespace Recording

variable {σ : Type} [Scalar σ]

/-- The master frequency where none is given. -/
def defaultMaster : σ := ((440 : Nat) : σ)

/-- A recording of the given data. There is at least one channel. -/
def ofData (channels rate : Nat) (data : Array σ) (master : Option σ) : Recording σ where
  channels := max channels 1
  rate := rate
  data := data
  master := master.getD defaultMaster
  channels_pos := by omega

/-- The number of complete frames. -/
def frames (r : Recording σ) : Nat := r.data.size / r.channels

/-- The sample of a channel in a frame. -/
def sample? (r : Recording σ) (channel frame : Nat) : Option σ :=
  r.data[r.channels * frame + channel]?

omit [Scalar σ] in
theorem index_lt (r : Recording σ) {channel frame : Nat} (hc : channel < r.channels)
    (hf : frame < r.frames) : r.channels * frame + channel < r.data.size := by
  have h := (Nat.le_div_iff_mul_le r.channels_pos).1 (Nat.succ_le_of_lt hf)
  rw [Nat.succ_mul, Nat.mul_comm] at h
  omega

/-- The mean of the channels in a frame; zero beyond the last complete frame. -/
def mono (r : Recording σ) (frame : Nat) : σ :=
  if frame < r.frames then
    (List.range r.channels).foldl (fun sum c => sum + (r.sample? c frame).getD 0) 0 /
      (r.channels : σ)
  else 0

/-! ## Playing -/

/-- Whether a place lies at or beyond the end. A place is a number of frames. -/
def finished (r : Recording σ) (place : σ) : Bool := decide ((r.frames : σ) ≤ place)

/-- The sample at a place and the next place, when a frequency is played at a rate. -/
def next (r : Recording σ) (frequency rate place : σ) : σ × σ :=
  if r.finished place then (0, place)
  else (r.mono (Scalar.floor place), place + frequency * (r.rate : σ) / r.master / rate)

theorem next_of_finished {r : Recording σ} {place : σ} (h : r.finished place) (f rate : σ) :
    r.next f rate place = (0, place) := by
  simp [next, h]

end Recording

end MusicMacro
