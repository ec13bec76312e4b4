import Mathlib.Analysis.SpecialFunctions.Trigonometric.Basic
import MusicMacro.Sound.Tone
import MusicMacro.Proofs.Exact.Field
import MusicMacro.Proofs.Extent
import MusicMacro.Proofs.Sound.Playback

/-!
# The amplitude of a tone

A sample of a tone is a product: what the instrument gives, between -1 and 1, the level of the
envelope, between zero and one, and the amplitude. So no sample goes beyond the amplitude, neither
while the tone is held nor in its release.

For the instrument this rests on the phase of an oscillator, which never leaves the circle, and on
the pieces of its waves, which meet where one takes over from the other.

* `Contour.level_next` — the level of an envelope.
* `Oscillator.OnCircle` — the phase of an oscillator. `Oscillator.onCircle_run` keeps it through any
  calls.
* `Oscillator.abs_wave_le`, `Oscillator.abs_noiseSample_le` — waves and noise.
* `Sounding.Sound` — what each sample of a tone leaves as it was.
* `Tone.abs_samples_le` — the samples of a tone, and the phase.
-/

namespace MusicMacro

attribute [local instance] Scalar.ofField Scalar.narrowSelf

variable {K : Type} [Field K] [LinearOrder K] [IsStrictOrderedRing K] [FloorRing K]

/-! ## Envelopes -/

namespace Contour

theorem slope_nonneg {rate : K} (hr : 0 < rate) (seconds : K) : 0 ≤ slope rate seconds := by
  unfold slope
  split
  · exact zero_le_one
  · next h =>
    have hs : 0 < seconds := not_le.1 h
    positivity

/-- One sample later the level is a level again. -/
theorem level_next {e : Envelope K} {rate : K} {c : Contour K} (hr : 0 < rate)
    (he : 0 ≤ e.sustain ∧ e.sustain ≤ 1) (h : 0 ≤ c.level ∧ c.level ≤ 1) :
    0 ≤ (c.next e rate).level ∧ (c.next e rate).level ≤ 1 := by
  obtain ⟨h0, h1⟩ := h
  cases hstage : c.stage with
  | idle | sustain =>
    simp only [next, hstage]
    exact ⟨h0, h1⟩
  | attack =>
    have hslope := slope_nonneg hr e.attack
    simp only [next, hstage]
    split
    · exact ⟨zero_le_one, le_rfl⟩
    · next hlt => exact ⟨add_nonneg h0 hslope, (not_le.1 hlt).le⟩
  | decay =>
    have hslope := slope_nonneg hr e.decay
    simp only [next, hstage]
    split
    · exact he
    · next hlt => exact ⟨he.1.trans (not_le.1 hlt).le, (sub_le_self _ hslope).trans h1⟩
  | release =>
    have hslope := slope_nonneg hr e.release
    simp only [next, hstage]
    split
    · exact ⟨le_rfl, zero_le_one⟩
    · next hlt => exact ⟨(not_le.1 hlt).le, (sub_le_self _ hslope).trans h1⟩

omit [Field K] [LinearOrder K] [IsStrictOrderedRing K] [FloorRing K] in
theorem level_noteOff (c : Contour K) : c.noteOff.level = c.level := by
  unfold noteOff
  split <;> rfl

end Contour

/-! ## Oscillators -/

variable [Circular K]

namespace Oscillator

/-- The phase lies on the circle. -/
def OnCircle (o : Oscillator K) : Prop := 0 ≤ o.phase ∧ o.phase < circle

/-- The oscillator after some calls. A call has a frequency and a rate. -/
def run (w : Waveform) (calls : List (K × K)) (o : Oscillator K) : Oscillator K :=
  calls.foldl (fun o call => (o.next w call.1 call.2).2) o

omit [IsStrictOrderedRing K] in
theorem circle_eq : (circle : K) = 2 * Circular.pi := rfl

omit [IsStrictOrderedRing K] in
theorem next_phase (w : Waveform) (frequency rate : K) (o : Oscillator K) :
    (o.next w frequency rate).2.phase = turn frequency rate o.phase := by
  cases w <;> rfl

section

variable (hpi : 0 < (Circular.pi : K))

include hpi

theorem circle_pos : 0 < (circle : K) := by
  rw [circle_eq]
  positivity

theorem onCircle_start : (start : Oscillator K).OnCircle := ⟨le_rfl, circle_pos hpi⟩

/-- A step goes on round the circle. -/
theorem onCircle_next {frequency rate : K} (hf : 0 ≤ frequency) (hr : 0 < rate) (w : Waveform)
    {o : Oscillator K} (h : o.OnCircle) : (o.next w frequency rate).2.OnCircle := by
  have hcircle := circle_pos hpi
  have hturn : 0 ≤ o.phase + circle * frequency / rate := by
    have hphase := h.1
    positivity
  unfold OnCircle
  rw [next_phase]
  exact Scalar.remainder_mem hturn hcircle

theorem onCircle_run (w : Waveform) {calls : List (K × K)}
    (hcalls : ∀ call ∈ calls, 0 ≤ call.1 ∧ 0 < call.2) {o : Oscillator K} (h : o.OnCircle) :
    (run w calls o).OnCircle := by
  induction calls generalizing o with
  | nil => exact h
  | cons call calls ih =>
    obtain ⟨⟨hf, hr⟩, hcalls⟩ := List.forall_mem_cons.1 hcalls
    exact ih hcalls (onCircle_next hpi hf hr w h)

end

/-! ### Waves -/

omit [Circular K] in
/-- The three pieces of a triangle meet at 1 and at -1. -/
theorem abs_triangle_le {t : K} (h0 : 0 ≤ t) (h1 : t < 1) : |triangle t| ≤ 1 := by
  unfold triangle
  simp only
  rw [abs_le]
  push_cast
  split_ifs with hrise hfall
  · rw [lt_div_iff₀ (by norm_num)] at hrise
    constructor <;> linarith
  · rw [lt_div_iff₀ (by norm_num)] at hrise hfall
    constructor <;> linarith
  · rw [lt_div_iff₀ (by norm_num)] at hrise hfall
    constructor <;> linarith

omit [Circular K] in
/-- A random number has 24 bits, so it is less than one. -/
theorem abs_noiseSample_le (word : UInt32) : |(noiseSample word : K)| ≤ 1 := by
  have hword : (word >>> 8).toNat < 2 ^ 24 := by
    have hlt := word.toNat_lt
    rw [UInt32.toNat_shiftRight, Nat.shiftRight_eq_div_pow]
    exact Nat.div_lt_of_lt_mul hlt
  have hlow : (0 : K) ≤ ((word >>> 8).toNat : K) / ((0x1000000 : Nat) : K) := by positivity
  have hhigh : ((word >>> 8).toNat : K) / ((0x1000000 : Nat) : K) < 1 := by
    rw [div_lt_one (by positivity)]
    exact_mod_cast hword
  unfold noiseSample
  push_cast at hlow hhigh ⊢
  rw [abs_le]
  constructor <;> linarith

section

variable (hpi : 0 < (Circular.pi : K)) (hsine : ∀ x : K, |Circular.sine x| ≤ 1)

include hpi hsine

/-- No wave goes beyond 1 on the circle. -/
theorem abs_wave_le (w : Waveform) {phase : K} (h0 : 0 ≤ phase) (h1 : phase < circle) :
    |wave w phase| ≤ 1 := by
  cases w with
  | sine => exact hsine phase
  | square =>
    unfold wave
    simp only
    split
    · exact abs_one.le
    · exact ((abs_neg 1).trans abs_one).le
  | sawtooth =>
    have hlow : 0 ≤ phase / Circular.pi := by positivity
    have hhigh : phase / Circular.pi < 2 := (div_lt_iff₀ hpi).2 h1
    unfold wave
    simp only
    rw [abs_le]
    constructor <;> linarith
  | triangle =>
    have hcircle := circle_pos hpi
    exact abs_triangle_le (by positivity) ((div_lt_one hcircle).2 h1)
  | noise => exact abs_zero.trans_le zero_le_one

theorem abs_next_le (w : Waveform) (frequency rate : K) {o : Oscillator K} (h : o.OnCircle) :
    |(o.next w frequency rate).1| ≤ 1 := by
  have hwave (w : Waveform) := abs_wave_le hpi hsine w h.1 h.2
  cases w with
  | noise => exact abs_noiseSample_le _
  | sine => exact hwave .sine
  | square => exact hwave .square
  | triangle => exact hwave .triangle
  | sawtooth => exact hwave .sawtooth

end

end Oscillator

/-! ## Sources -/

/-- What a source gives is between -1 and 1: an oscillator is on its circle, and the samples of a
recording are in range. -/
def Source.Sound : Source K → Prop
  | .oscillator _ o => o.OnCircle
  | .recording r _ => r.InRange

theorem Instrument.sound_start (hpi : 0 < (Circular.pi : K)) {i : Instrument K}
    (h : ∀ r, i = .recording r → r.InRange) : i.start.Sound := by
  cases i with
  | oscillator w => exact Oscillator.onCircle_start hpi
  | recording r => exact h r rfl

theorem Source.sound_next (hpi : 0 < (Circular.pi : K)) {frequency rate : K} (hf : 0 ≤ frequency)
    (hr : 0 < rate) {s : Source K} (h : s.Sound) : (s.next frequency rate).2.Sound := by
  cases s with
  | oscillator w o => exact Oscillator.onCircle_next hpi hf hr w h
  | recording r place => exact h

theorem Source.abs_next_le (hpi : 0 < (Circular.pi : K))
    (hsine : ∀ x : K, |Circular.sine x| ≤ 1) (frequency rate : K) {s : Source K} (h : s.Sound) :
    |(s.next frequency rate).1| ≤ 1 := by
  cases s with
  | oscillator w o => exact Oscillator.abs_next_le hpi hsine w frequency rate h
  | recording r place =>
    show |(r.next frequency rate place).1| ≤ 1
    unfold Recording.next
    split
    · exact abs_zero.trans_le zero_le_one
    · exact Recording.InRange.abs_mono_le h _

/-! ## Tones -/

namespace Sounding

/-- The frequency, the rate, the amplitude and the sustain level are what they should be. -/
structure Setting.Proper (k : Setting K) : Prop where
  frequency_nonneg : 0 ≤ k.frequency
  rate_pos : 0 < k.rate
  amplitude_nonneg : 0 ≤ k.amplitude
  sustain_mem : 0 ≤ k.envelope.sustain ∧ k.envelope.sustain ≤ 1

/-- The source gives what is between -1 and 1, and the level is between zero and one. -/
structure Sound (s : Sounding K) : Prop where
  source : s.source.Sound
  level : 0 ≤ s.contour.level ∧ s.contour.level ≤ 1

variable {k : Setting K} {s : Sounding K} {samples : Array K}

theorem Sound.next (hpi : 0 < (Circular.pi : K)) (hk : k.Proper) (h : s.Sound) :
    (s.next k).2.Sound where
  source := Source.sound_next hpi hk.frequency_nonneg hk.rate_pos h.source
  level := Contour.level_next hk.rate_pos hk.sustain_mem h.level

omit [IsStrictOrderedRing K] in
/-- The end of a tone changes no level. -/
theorem Sound.noteOff (h : s.Sound) : Sound { s with contour := s.contour.noteOff } where
  source := h.source
  level := by
    rw [Contour.level_noteOff]
    exact h.level

/-- A sample does not go beyond the amplitude. -/
theorem Sound.abs_next_le (hpi : 0 < (Circular.pi : K)) (hsine : ∀ x : K, |Circular.sine x| ≤ 1)
    (hk : k.Proper) (h : s.Sound) : |(s.next k).1| ≤ k.amplitude := by
  have hx := Source.abs_next_le hpi hsine k.frequency k.rate h.source
  obtain ⟨hlow, hhigh⟩ := (h.next hpi hk).level
  have ha := hk.amplitude_nonneg
  calc |(s.source.next k.frequency k.rate).1 * (s.next k).2.contour.level * k.amplitude|
    _ = |(s.source.next k.frequency k.rate).1| * (s.next k).2.contour.level * k.amplitude := by
      rw [abs_mul, abs_mul, abs_of_nonneg hlow, abs_of_nonneg ha]
    _ ≤ 1 * 1 * k.amplitude := by gcongr
    _ = k.amplitude := by ring

variable (hpi : 0 < (Circular.pi : K)) (hsine : ∀ x : K, |Circular.sine x| ≤ 1) (hk : k.Proper)

include hpi hsine hk

theorem abs_push_le (h : s.Sound) (hsamples : ∀ x ∈ samples, |x| ≤ k.amplitude) :
    ∀ x ∈ samples.push (s.next k).1, |x| ≤ k.amplitude := by
  intro x hx
  rcases Array.mem_push.1 hx with hx | rfl
  · exact hsamples x hx
  · exact h.abs_next_le hpi hsine hk

theorem abs_hold_le (n : Nat) (h : s.Sound) (hsamples : ∀ x ∈ samples, |x| ≤ k.amplitude) :
    (hold k n s samples).1.Sound ∧ ∀ x ∈ (hold k n s samples).2, |x| ≤ k.amplitude := by
  induction n generalizing s samples with
  | zero => exact ⟨h, hsamples⟩
  | succ n ih => exact ih (h.next hpi hk) (abs_push_le hpi hsine hk h hsamples)

theorem abs_fade_le (n : Nat) (h : s.Sound) (hsamples : ∀ x ∈ samples, |x| ≤ k.amplitude) :
    ∀ x ∈ fade k n s samples, |x| ≤ k.amplitude := by
  induction n generalizing s samples with
  | zero => exact hsamples
  | succ n ih =>
    rw [fade]
    split
    · exact hsamples
    · exact ih (h.next hpi hk) (abs_push_le hpi hsine hk h hsamples)

end Sounding

/-- No sample of a tone goes beyond its amplitude, the release included. The phase of an oscillator
stays on the circle, whatever frequencies and rates it is called with. -/
theorem Tone.abs_samples_le (hpi : 0 < (Circular.pi : K))
    (hsine : ∀ x : K, |Circular.sine x| ≤ 1) :
    (∀ (t : Tone K K) (rate : Nat), 0 ≤ t.frequency → 0 ≤ t.amplitude →
      0 ≤ t.envelope.sustain → t.envelope.sustain ≤ 1 →
      (∀ r, t.instrument = .recording r → r.InRange) → 0 < rate →
      ∀ x ∈ t.samples rate, -t.amplitude ≤ x ∧ x ≤ t.amplitude) ∧
    ∀ (w : Waveform) (calls : List (K × K)), (∀ call ∈ calls, 0 ≤ call.1 ∧ 0 < call.2) →
      0 ≤ (Oscillator.run w calls .start).phase ∧
        (Oscillator.run w calls .start).phase < 2 * Circular.pi := by
  constructor
  · intro t rate hf ha h0 h1 hdata hr x hx
    have hk : (t.setting rate).Proper := ⟨hf, Nat.cast_pos.2 hr, ha, h0, h1⟩
    have hstart : t.start.Sound :=
      ⟨t.instrument.sound_start hpi hdata, le_rfl, zero_le_one⟩
    unfold samples at hx
    dsimp only at hx
    split at hx
    · exact absurd hx (Array.not_mem_empty x)
    · have hempty : ∀ y ∈ (#[] : Array K), |y| ≤ (t.setting rate).amplitude :=
        fun y hy => absurd hy (Array.not_mem_empty y)
      obtain ⟨hheld, hsamples⟩ :=
        Sounding.abs_hold_le hpi hsine hk (t.heldSamples rate) hstart hempty
      exact abs_le.1 (Sounding.abs_fade_le hpi hsine hk _ hheld.noteOff hsamples x hx)
  · intro w calls hcalls
    exact Oscillator.onCircle_run hpi w hcalls (Oscillator.onCircle_start hpi)

section

/-- The circle itself. -/
noncomputable local instance realCircle : Circular ℝ := ⟨Real.pi, Real.sin⟩

/-- The concert pitch for a second. -/
theorem Tone.abs_samples_le_concertPitch :
    let t : Tone ℝ ℝ := ⟨1, 440, 1 / 2, .oscillator .sine, ⟨0, 1 / 10, 1 / 2, 1 / 10⟩⟩
    44100 ≤ (t.samples 44100).size ∧ (∀ x ∈ t.samples 44100, -(1 / 2) ≤ x ∧ x ≤ 1 / 2) ∧
      0 ≤ (Oscillator.run .sine [((440 : ℝ), (44100 : ℝ)), (0, 8000)] .start).phase ∧
      (Oscillator.run .sine [((440 : ℝ), (44100 : ℝ)), (0, 8000)] .start).phase < 2 * Real.pi := by
  intro t
  obtain ⟨hsamples, hphase⟩ := Tone.abs_samples_le Real.pi_pos Real.abs_sin_le_one
  refine ⟨?_, ?_, hphase .sine _ ?_⟩
  · have hheld : t.heldSamples 44100 = 44100 := by
      show ⌊(1 : ℝ) * ((44100 : ℕ) : ℝ) + 1 / 2⌋.toNat = 44100
      norm_num
      rfl
    exact hheld.symm.trans_le (t.size_samples 44100).2
  · refine hsamples t 44100 ?_ ?_ ?_ ?_ nofun (by decide) <;> norm_num [t]
  · simp

end

end MusicMacro
