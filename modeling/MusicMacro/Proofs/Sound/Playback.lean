import Mathlib.Algebra.Order.Floor.Ring
import MusicMacro.Sound.Recording
import MusicMacro.Proofs.Exact.Field

/-!
# Recordings that are played

A recording is played by one call for each sample. The frequencies and the rates of the calls are
anything, what is not a number among them, and so the place may be anything too. Yet what is read is
always in the data, and a recording that has ended is silent from then on.

* `Recording.mono?`, `Recording.play?` — the mean and the playing that give nothing when a sample is
  read that is not in the data.
* `Recording.mono?_eq`, `Recording.play?_eq` — that never happens.
* `Recording.play_of_finished` — silence after the end.
* `Recording.Safe` — all of it, for a recording whose samples are between -1 and 1.
* `Recording.mono_mem` — the exact mean of such samples.
-/

namespace MusicMacro.Recording

variable {σ : Type} [Scalar σ] (r : Recording σ)

/-! ## Reading the data -/

/-- The mean of the channels in a frame, if all that is read is in the data. -/
def mono? (frame : Nat) : Option σ :=
  if frame < r.frames then do
    let sum ← (List.range r.channels).foldlM (fun sum c => (r.sample? c frame).map (sum + ·)) 0
    return sum / (r.channels : σ)
  else some 0

theorem mono_of_le {frame : Nat} (h : r.frames ≤ frame) : r.mono frame = 0 :=
  if_neg (Nat.not_lt.2 h)

/-- The data has all that the mean looks at. -/
theorem mono?_eq (frame : Nat) : r.mono? frame = some (r.mono frame) := by
  unfold mono? mono
  by_cases hf : frame < r.frames
  · have hsum (channels : List Nat) (hc : ∀ c ∈ channels, c < r.channels) (sum : σ) :
        channels.foldlM (fun sum c => (r.sample? c frame).map (sum + ·)) sum =
          some (channels.foldl (fun sum c => sum + (r.sample? c frame).getD 0) sum) := by
      induction channels generalizing sum with
      | nil => rfl
      | cons c channels ih =>
        obtain ⟨hc, hcs⟩ := List.forall_mem_cons.1 hc
        obtain ⟨x, hx⟩ : ∃ x, r.sample? c frame = some x :=
          ⟨_, Array.getElem?_eq_getElem (r.index_lt hc hf)⟩
        rw [List.foldlM_cons, List.foldl_cons, hx, Option.map_some, Option.bind_eq_bind,
          Option.bind_some, ih hcs, Option.getD_some]
    rw [if_pos hf, if_pos hf, hsum _ fun c => List.mem_range.1]
    rfl
  · rw [if_neg hf, if_neg hf]

/-- The sample at a place and the next place, if all that is read is in the data. -/
def next? (frequency rate place : σ) : Option (σ × σ) :=
  if r.finished place then some (0, place)
  else (r.mono? (Scalar.floor place)).map fun x =>
    (x, place + frequency * (r.rate : σ) / r.master / rate)

theorem next?_eq (frequency rate place : σ) :
    r.next? frequency rate place = some (r.next frequency rate place) := by
  unfold next? next
  rw [mono?_eq, Option.map_some]
  exact (apply_ite some _ _ _).symm

/-! ## Calls -/

/-- The samples that some calls give from a place on, and the place after them. A call has a
frequency and a rate. -/
def play : List (σ × σ) → σ → List σ × σ
  | [], place => ([], place)
  | (frequency, rate) :: calls, place =>
    let now := r.next frequency rate place
    let later := play calls now.2
    (now.1 :: later.1, later.2)

/-- The same, if all that is read is in the data. -/
def play? : List (σ × σ) → σ → Option (List σ × σ)
  | [], place => some ([], place)
  | (frequency, rate) :: calls, place => do
    let now ← r.next? frequency rate place
    let later ← play? calls now.2
    return (now.1 :: later.1, later.2)

/-- No call reads what is not in the data. -/
theorem play?_eq (calls : List (σ × σ)) (place : σ) :
    r.play? calls place = some (r.play calls place) := by
  induction calls generalizing place with
  | nil => rfl
  | cons call calls ih =>
    obtain ⟨frequency, rate⟩ := call
    simp only [play?, play, next?_eq, ih, Option.bind_eq_bind, Option.bind_some, Option.pure_def]

theorem play_append (calls later : List (σ × σ)) (place : σ) :
    r.play (calls ++ later) place =
      ((r.play calls place).1 ++ (r.play later (r.play calls place).2).1,
        (r.play later (r.play calls place).2).2) := by
  induction calls generalizing place with
  | nil => rfl
  | cons call calls ih =>
    obtain ⟨frequency, rate⟩ := call
    simp only [List.cons_append, play, ih]

/-- After the end there is silence, and the place stays. -/
theorem play_of_finished {place : σ} (h : r.finished place) (calls : List (σ × σ)) :
    r.play calls place = (List.replicate calls.length 0, place) := by
  induction calls with
  | nil => rfl
  | cons call calls ih =>
    obtain ⟨frequency, rate⟩ := call
    simp only [play, next_of_finished h, ih]
    rfl

/-! ## Samples in range -/

/-- All samples are between -1 and 1. -/
def InRange : Prop := ∀ x ∈ r.data, -1 ≤ x ∧ x ≤ 1

/-- The samples are in range, and whatever is called, no sample is read that is not in the data.
When some calls have come to the end, all later ones give silence there. -/
structure Safe : Prop where
  inRange : r.InRange
  mono?_eq : ∀ frame, r.mono? frame = some (r.mono frame)
  mono_of_le : ∀ frame, r.frames ≤ frame → r.mono frame = 0
  play?_eq : ∀ calls, r.play? calls 0 = some (r.play calls 0)
  play_of_finished : ∀ calls later, r.finished (r.play calls 0).2 →
    r.play (calls ++ later) 0 =
      ((r.play calls 0).1 ++ List.replicate later.length 0, (r.play calls 0).2)

variable {r}

theorem InRange.safe (h : r.InRange) : r.Safe where
  inRange := h
  mono?_eq := r.mono?_eq
  mono_of_le _ := r.mono_of_le
  play?_eq calls := r.play?_eq calls 0
  play_of_finished calls later hfinished := by
    rw [play_append, r.play_of_finished hfinished]

end MusicMacro.Recording

/-! ## Exact means -/

namespace MusicMacro.Recording

attribute [local instance] Scalar.ofField

variable {K : Type} [Field K] [LinearOrder K] [IsStrictOrderedRing K] [FloorRing K]
  {r : Recording K}

/-- The exact mean of samples in range is in range. -/
theorem InRange.abs_mono_le (h : r.InRange) (frame : Nat) : |r.mono frame| ≤ 1 := by
  have hsample (c : Nat) : |(r.sample? c frame).getD 0| ≤ 1 := by
    unfold sample?
    cases hx : r.data[r.channels * frame + c]? with
    | none => exact abs_zero.trans_le zero_le_one
    | some x => exact abs_le.2 (h x (Array.mem_of_getElem? hx))
  have hsum (channels : List Nat) (sum : K) :
      |channels.foldl (fun sum c => sum + (r.sample? c frame).getD 0) sum| ≤
        |sum| + channels.length := by
    induction channels generalizing sum with
    | nil => simp
    | cons c channels ih =>
      have hadd := abs_add_le sum ((r.sample? c frame).getD 0)
      rw [List.foldl_cons, List.length_cons]
      push_cast
      linarith [ih (sum + (r.sample? c frame).getD 0), hsample c]
  have hpos : (0 : K) < r.channels := Nat.cast_pos.2 r.channels_pos
  unfold mono
  split
  · rw [abs_div, abs_of_pos hpos, div_le_one hpos]
    have hwhole := hsum (List.range r.channels) 0
    rwa [abs_zero, zero_add, List.length_range] at hwhole
  · exact abs_zero.trans_le zero_le_one

end MusicMacro.Recording
