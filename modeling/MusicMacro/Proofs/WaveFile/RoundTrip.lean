import MusicMacro.Proofs.WaveFile.Container
import MusicMacro.Proofs.WaveFile.Levels

/-!
# Written and read back

Samples that are written as a file are read back, up to half a level, as loud as can be. What has
been read back is written as the same file again.

* `values_levels` — the samples that levels in a file stand for.
* `levelAmong`, `readAmong` — the level that a sample is written as, and the sample that is read.
* `recording`, `decode_encode_eq` — the recording that is read back.
* `ReadBack` — what it has to do with the samples.
* `encode_recording` — what is written again.
* `decode_encode` — all of it.
-/

namespace MusicMacro

namespace WaveFile

open LittleEndian (valueCount signedBytes signedValue length_signedBytes signedValue_signedBytes)

/-! ## Levels in a file -/

/-- A piece of many pieces of the same length. -/
theorem drop_flatMap {α β : Type} {f : α → List β} {n : Nat} (hf : ∀ x, (f x).length = n)
    (xs : List α) {i : Nat} {x : α} (hx : xs[i]? = some x) :
    ((xs.flatMap f).drop (i * n)).take n = f x := by
  induction xs generalizing i with
  | nil => cases hx
  | cons y xs ih =>
    rw [List.flatMap_cons]
    cases i with
    | zero =>
      cases hx
      rw [Nat.zero_mul, List.drop_zero, ← hf x, List.take_left]
    | succ i =>
      have hlength : (i + 1) * n = (f y).length + i * n := by rw [hf, Nat.succ_mul, Nat.add_comm]
      rw [hlength, List.drop_length_add_append]
      exact ih hx

/-- A level is read as it was written. -/
theorem value_signedBytes {σ : Type} [Scalar σ] [Dyadic σ] {level : Int} (hlow : -32768 ≤ level)
    (hhigh : level ≤ 32767) :
    (Coding.signed16.value (signedBytes 2 level) : σ) = Coding.scaled level 32767 := by
  have hsame : signedValue (signedBytes 2 level) = level := by
    rw [signedValue_signedBytes]
    exact Int.bmod_eq_of_le (by simpa [valueCount] using hlow) (by simp [valueCount]; omega)
  unfold Coding.value
  dsimp only
  rw [hsame]

theorem getElem_values {σ : Type} [Scalar σ] [Dyadic σ] (c : Coding) (bs : Bytes) {i : Nat}
    (h : i < (c.values bs : Array σ).size) :
    (c.values bs)[i] = c.value (bs.extract (i * c.width) (i * c.width + c.width)).toList := by
  simp [Coding.values]

theorem length_levels (levels : List Int) :
    (levels.flatMap (signedBytes 2)).length = 2 * levels.length := by
  simp [List.length_flatMap, length_signedBytes, List.map_const', Nat.mul_comm]

/-- The samples that levels of 16 bits stand for. -/
theorem values_levels {σ : Type} [Scalar σ] [Dyadic σ] (levels : List Int)
    (h : ∀ level ∈ levels, -32768 ≤ level ∧ level ≤ 32767) :
    Coding.signed16.values (levels.flatMap (signedBytes 2)).toArray =
      (levels.map fun level => (Coding.scaled level 32767 : σ)).toArray := by
  have hcount : (levels.flatMap (signedBytes 2)).toArray.size / Coding.signed16.width =
      levels.length := by
    rw [List.size_toArray, length_levels]
    exact Nat.mul_div_cancel_left _ (by decide)
  apply Array.ext
  · rw [Coding.size_values, hcount, List.size_toArray, List.length_map]
  · intro i hi hi'
    have hlt : i < levels.length := by simpa using hi'
    obtain ⟨hlow, hhigh⟩ := h levels[i] (List.getElem_mem hlt)
    have hpiece := drop_flatMap (length_signedBytes 2) levels (List.getElem?_eq_getElem hlt)
    have hwidth : Coding.signed16.width = 2 := rfl
    rw [getElem_values, List.extract_toArray, List.extract_eq_take_drop, hwidth,
      Nat.add_sub_cancel_left, hpiece, value_signedBytes hlow hhigh]
    simp

/-! ## Reading back -/

variable {samples : Array Rat} {channels rate : Nat}

/-- The level that a sample is written as, beside other samples. -/
def levelAmong (samples : Array Rat) (x : Rat) : Int := quantise (Peak.ofSamples samples).gain x

/-- No sample is louder than the loudest one. -/
theorem abs_mul_gain_le {x : Rat} (hx : x ∈ samples) : |x * (Peak.ofSamples samples).gain| ≤ 1 := by
  obtain ⟨hall, hnonneg, -⟩ := loudest_cases samples
  rw [gain_eq, ← div_eq_mul_inv, abs_div, abs_of_nonneg hnonneg]
  exact div_le_one_of_le₀ (hall x hx) hnonneg

theorem abs_levelAmong_le {x : Rat} (hx : x ∈ samples) : |levelAmong samples x| ≤ 32767 :=
  (abs_quantise_sub_le (abs_mul_gain_le hx)).1

/-- The sample that is read for a sample that has been written beside others. -/
def readAmong (samples : Array Rat) (x : Rat) : Rat := (levelAmong samples x : Rat) / 32767

/-- The recording that is read back. -/
def recording (samples : Array Rat) (channels rate : Nat) (master : Option Rat) : Recording Rat :=
  .ofData channels rate (samples.map (readAmong samples)) master

/-- The bytes of a file, by the levels. -/
theorem encode_levels (samples : Array Rat) (channels rate : Nat) :
    encode samples channels rate =
      (preamble channels rate (2 * samples.size) ++
        (samples.toList.map (levelAmong samples)).flatMap (signedBytes 2)).toArray := by
  rw [encode_eq, List.flatMap_map]
  rfl

/-- What is written is read. -/
theorem decode_encode_eq (hc : channels < valueCount 2) (hr : rate < valueCount 4)
    (hs : 36 + 2 * samples.size < valueCount 4) (master : Option Rat) :
    decode (encode samples channels rate) master =
      .ok (recording samples channels rate master) := by
  have hlength : ((samples.toList.map (levelAmong samples)).flatMap (signedBytes 2)).length =
      2 * samples.size := by
    rw [length_levels, List.length_map, Array.length_toList]
  have hvalues : Coding.signed16.values
      ((samples.toList.map (levelAmong samples)).flatMap (signedBytes 2)).toArray =
        samples.map (readAmong samples) := by
    rw [values_levels]
    · apply Array.toList_inj.1
      rw [List.map_map, Array.toList_map]
      apply List.map_congr_left
      intro x hx
      exact Coding.scaled_eq (abs_levelAmong_le (Array.mem_def.2 hx))
    · intro level hlevel
      obtain ⟨x, -, rfl⟩ := List.mem_map.1 hlevel
      exact quantise_le _ _
  rw [encode_levels, ← hlength, decode_preamble hc hr (by rw [hlength]; exact hs), hvalues]
  rfl

/-! ## How near it is -/

/-- Silence is read as silence. -/
theorem levelAmong_of_silent (h : loudest samples = 0) (x : Rat) : levelAmong samples x = 0 := by
  apply quantise_of_level (by decide)
  rw [gain_eq, h]
  simp

theorem readAmong_of_silent (h : loudest samples = 0) (x : Rat) : readAmong samples x = 0 := by
  unfold readAmong
  rw [levelAmong_of_silent h, Int.cast_zero, zero_div]

/-- The loudest samples are read as 1 and -1. -/
theorem readAmong_of_loudest (h : loudest samples ≠ 0) :
    readAmong samples (loudest samples) = 1 ∧ readAmong samples (-loudest samples) = -1 := by
  have hmost : levelAmong samples (loudest samples) = 32767 := by
    apply quantise_of_level (by decide)
    rw [gain_eq, mul_inv_cancel₀ h]
    norm_num
  have hleast : levelAmong samples (-loudest samples) = -32767 := by
    apply quantise_of_level (by decide)
    rw [gain_eq, neg_mul, mul_inv_cancel₀ h]
    norm_num
  unfold readAmong
  rw [hmost, hleast]
  norm_num

theorem abs_readAmong_le {x : Rat} (hx : x ∈ samples) : |readAmong samples x| ≤ 1 :=
  abs_level_div_le (abs_levelAmong_le hx)

/-- What is read is half a level away at most. -/
theorem abs_readAmong_sub_le {x : Rat} (hx : x ∈ samples) :
    |readAmong samples x - x / loudest samples| ≤ 1 / (2 * 32767) := by
  have hclose := (abs_quantise_sub_le (abs_mul_gain_le hx)).2
  have hdiff : readAmong samples x - x / loudest samples =
      ((levelAmong samples x : Rat) - x * (Peak.ofSamples samples).gain * 32767) / 32767 := by
    rw [readAmong, gain_eq]
    ring
  rw [hdiff, abs_div, abs_of_pos (show (0 : Rat) < 32767 by norm_num),
    div_le_iff₀ (by norm_num)]
  exact hclose.trans_eq (by norm_num)

theorem levelAmong_mono {x y : Rat} (h : x ≤ y) : levelAmong samples x ≤ levelAmong samples y := by
  apply quantise_mono _ h
  rw [gain_eq]
  exact inv_nonneg.2 (loudest_cases samples).2.1

theorem readAmong_mono {x y : Rat} (h : x ≤ y) : readAmong samples x ≤ readAmong samples y := by
  have hlevel : (levelAmong samples x : Rat) ≤ levelAmong samples y := by
    exact_mod_cast levelAmong_mono h
  exact div_le_div_of_nonneg_right hlevel (by norm_num)

/-- What a recording that is read back has to do with the samples that were written. The samples
that are read are as many, in the same order, as loud as can be: half a level away at most from what
they would be if the loudest one were 1, and exactly so where they are the loudest. -/
structure ReadBack (samples : Array Rat) (channels rate : Nat) (r : Recording Rat) : Prop where
  channels_eq : r.channels = channels
  rate_eq : r.rate = rate
  frames_eq : r.frames = samples.size / channels
  size_eq : r.data.size = samples.size
  abs_le : ∀ i (hr : i < r.data.size), |r.data[i]| ≤ 1
  silent : loudest samples = 0 → ∀ i (hr : i < r.data.size), r.data[i] = 0
  close : loudest samples ≠ 0 → ∀ i (hs : i < samples.size) (hr : i < r.data.size),
    |r.data[i] - samples[i] / loudest samples| ≤ 1 / (2 * 32767)
  loud : loudest samples ≠ 0 → ∀ i (hs : i < samples.size) (hr : i < r.data.size),
    (samples[i] = loudest samples → r.data[i] = 1) ∧
      (samples[i] = -loudest samples → r.data[i] = -1)
  mono : ∀ i j (hi : i < samples.size) (hj : j < samples.size) (hi' : i < r.data.size)
    (hj' : j < r.data.size), samples[i] ≤ samples[j] → r.data[i] ≤ r.data[j]

theorem readBack_recording (hc : 1 ≤ channels) (master : Option Rat) :
    ReadBack samples channels rate (recording samples channels rate master) := by
  have hchannels : (recording samples channels rate master).channels = channels := max_eq_left hc
  have hsize : (recording samples channels rate master).data.size = samples.size := Array.size_map
  have hdata : ∀ i (hs : i < samples.size)
      (hr : i < (recording samples channels rate master).data.size),
      (recording samples channels rate master).data[i] = readAmong samples samples[i] := by
    intro i hs hr
    simp [recording, Recording.ofData]
  refine ⟨hchannels, rfl, ?_, hsize, ?_, ?_, ?_, ?_, ?_⟩
  · rw [Recording.frames, hchannels, hsize]
  · intro i hr
    rw [hdata i (hsize ▸ hr) hr]
    exact abs_readAmong_le (Array.getElem_mem _)
  · intro h i hr
    rw [hdata i (hsize ▸ hr) hr, readAmong_of_silent h]
  · intro _ i hs hr
    rw [hdata i hs hr]
    exact abs_readAmong_sub_le (Array.getElem_mem _)
  · intro h i hs hr
    obtain ⟨hmost, hleast⟩ := readAmong_of_loudest h
    rw [hdata i hs hr]
    exact ⟨fun heq => heq ▸ hmost, fun heq => heq ▸ hleast⟩
  · intro i j hi hj hi' hj' h
    rw [hdata i hi hi', hdata j hj hj']
    exact readAmong_mono h

/-! ## Written again -/

/-- What is read is as loud as can be, or silent. -/
theorem loudest_readAmong (h : loudest samples ≠ 0) :
    loudest (samples.map (readAmong samples)) = 1 := by
  obtain ⟨hall, -, hmost⟩ := loudest_cases (samples.map (readAmong samples))
  apply le_antisymm
  · rcases hmost with hmost | ⟨v, hv, hmost⟩
    · rw [hmost]
      exact zero_le_one
    · obtain ⟨x, hx, rfl⟩ := Array.mem_map.1 hv
      rw [← hmost]
      exact abs_readAmong_le hx
  · obtain ⟨x, hx, hloud⟩ := (loudest_cases samples).2.2.resolve_left h
    obtain ⟨hgreatest, hleast⟩ := readAmong_of_loudest h
    have hone : |readAmong samples x| = 1 := by
      rcases eq_or_eq_neg_of_abs_eq hloud with heq | heq
      · rw [heq, hgreatest, abs_one]
      · rw [heq, hleast, abs_neg, abs_one]
    rw [← hone]
    exact hall _ (Array.mem_map.2 ⟨x, hx, rfl⟩)

/-- What is read has the level with which it was written. -/
theorem levelAmong_readAmong {x : Rat} (hx : x ∈ samples) :
    levelAmong (samples.map (readAmong samples)) (readAmong samples x) = levelAmong samples x := by
  by_cases h : loudest samples = 0
  · have hsilent : loudest (samples.map (readAmong samples)) = 0 := by
      rcases (loudest_cases (samples.map (readAmong samples))).2.2 with hmost | ⟨v, hv, hmost⟩
      · exact hmost
      · obtain ⟨y, -, rfl⟩ := Array.mem_map.1 hv
        rw [← hmost, readAmong_of_silent h, abs_zero]
    rw [levelAmong_of_silent h, levelAmong_of_silent hsilent]
  · -- the loudest sample that is read is 1, so the second gain changes nothing
    apply quantise_of_level (abs_levelAmong_le hx)
    rw [gain_eq, loudest_readAmong h, readAmong]
    ring

/-- What has been read is written as it was. -/
theorem encode_recording (hc : 1 ≤ channels) (master : Option Rat) :
    let r := recording samples channels rate master
    encode r.data r.channels r.rate = encode samples channels rate := by
  intro r
  have hchannels : r.channels = channels := max_eq_left hc
  have hdata : r.data = samples.map (readAmong samples) := rfl
  have hlevels : (samples.map (readAmong samples)).toList.map
      (levelAmong (samples.map (readAmong samples))) = samples.toList.map (levelAmong samples) := by
    rw [Array.toList_map, List.map_map]
    apply List.map_congr_left
    intro x hx
    exact levelAmong_readAmong (Array.mem_def.2 hx)
  rw [hchannels, hdata, encode_levels, encode_levels, hlevels, Array.size_map]
  rfl

/-- Samples are written as 44 bytes and then their levels, which grow with the samples. They are
read back from that file, and what is read is written as the same file again. -/
theorem decode_encode (samples : Array Rat) {channels rate : Nat} (hc : 1 ≤ channels)
    (hframe : 2 * channels < 2 ^ 16) (hbytes : 2 * channels * rate < 2 ^ 32)
    (hsize : 36 + 2 * samples.size < 2 ^ 32) (master : Option Rat) :
    (∃ header : List UInt8, header.length = 44 ∧ encode samples channels rate =
      (header ++ samples.toList.flatMap fun x => signedBytes 2 (levelAmong samples x)).toArray) ∧
    (∀ x y, x ≤ y → levelAmong samples x ≤ levelAmong samples y) ∧
    ∃ r : Recording Rat, decode (encode samples channels rate) master = .ok r ∧
      ReadBack samples channels rate r ∧
      encode r.data r.channels r.rate = encode samples channels rate := by
  have hwords : valueCount 2 = 2 ^ 16 ∧ valueCount 4 = 2 ^ 32 := by decide
  have hrate : rate ≤ 2 * channels * rate := Nat.le_mul_of_pos_left rate (by omega)
  refine ⟨⟨_, length_preamble .., encode_eq ..⟩, fun x y => levelAmong_mono, ?_⟩
  refine ⟨recording samples channels rate master, ?_, readBack_recording hc master,
    encode_recording hc master⟩
  exact decode_encode_eq (by omega) (by omega) (by omega) master

/-- Three samples in two channels are one frame and a half. -/
theorem decode_encode_stereo :
    let samples : Array Rat := #[1 / 4, -1 / 2, 1 / 8]
    samples.toList.map (levelAmong samples) = [16384, -32767, 8192] ∧
      1 ≤ 2 ∧ 2 * 2 < 2 ^ 16 ∧ 2 * 2 * 8000 < 2 ^ 32 ∧ 36 + 2 * samples.size < 2 ^ 32 ∧
      ∃ r : Recording Rat, decode (encode samples 2 8000) none = .ok r ∧
        r.channels = 2 ∧ r.rate = 8000 ∧ r.frames = 1 ∧ r.data.size = 3 ∧
        encode r.data r.channels r.rate = encode samples 2 8000 := by
  intro samples
  have hlevels : samples.toList.map (levelAmong samples) = [16384, -32767, 8192] := by
    decide +kernel
  have hc : 1 ≤ 2 := by decide
  have hframe : 2 * 2 < 2 ^ 16 := by decide
  have hbytes : 2 * 2 * 8000 < 2 ^ 32 := by decide
  have hsize : 36 + 2 * samples.size < 2 ^ 32 := by decide
  obtain ⟨-, -, r, hr, hback, hagain⟩ := decode_encode samples hc hframe hbytes hsize none
  have hframes : r.frames = 1 := by
    rw [hback.frames_eq]
    decide
  exact ⟨hlevels, hc, hframe, hbytes, hsize, r, hr, hback.channels_eq, hback.rate_eq, hframes,
    hback.size_eq, hagain⟩

end WaveFile

end MusicMacro
