import MusicMacro.WaveFile
import MusicMacro.Proofs.Exact.Field
import MusicMacro.Proofs.Order.Binary64
import MusicMacro.Proofs.Sound.Playback

/-!
# Samples of any file

A file may announce what it likes: no channels, samples that are cut off, floating-point numbers
that are infinite or no numbers. What is read from it is a recording that can be played.

* `Coding.clip_mem` — what is cut off is in range, whatever it was.
* `Coding.value_mem` — so is every sample that bytes stand for.
* `eq_ofData_of_decode` — the recording of a file.
* `decode_safe` — it is safe to be played, with floating point and with exact samples.
-/

namespace MusicMacro

/-! ## Samples -/

namespace Coding

variable {σ : Type} [Scalar σ] [Scalar.Ordered σ]

theorem bounds_mem (h : (-1 : σ) < 1) :
    ((-1 : σ) ≤ -1 ∧ (-1 : σ) ≤ 1) ∧ ((-1 : σ) ≤ 1 ∧ (1 : σ) ≤ 1) := by
  have hle := Scalar.le_of_lt h
  obtain ⟨hleast, hgreatest⟩ := Scalar.Ordered.isNumber_of_le hle
  exact ⟨⟨Scalar.le_self hleast, hle⟩, hle, Scalar.le_self hgreatest⟩

/-- Whatever is cut off is in range then. What is no number gives way to the least sample. -/
theorem clip_mem (h : (-1 : σ) < 1) (x : σ) : -1 ≤ clip x ∧ clip x ≤ 1 := by
  obtain ⟨⟨hleast, hle⟩, -, hgreatest⟩ := bounds_mem h
  have hlarger : -1 ≤ Scalar.larger x (-1) := by
    unfold Scalar.larger
    split
    · next hx => exact Scalar.le_of_lt hx
    · exact hleast
  have hnumber := (Scalar.Ordered.isNumber_of_le hlarger).2
  have hone := (Scalar.Ordered.isNumber_of_le hle).2
  refine ⟨?_, (Scalar.smaller_le hnumber hone).2⟩
  rcases Scalar.smaller_eq_or (a := Scalar.larger x (-1)) hone with heq | heq
  · exact hlarger.trans_eq heq.symm
  · exact hle.trans_eq heq.symm

variable [Dyadic σ]

theorem ofBinary_mem (h : (-1 : σ) < 1) (x : Binary) :
    -1 ≤ (ofBinary x : σ) ∧ (ofBinary x : σ) ≤ 1 := by
  obtain ⟨hleast, hgreatest⟩ := bounds_mem h
  cases x with
  | nan => exact hleast
  | infinite negative =>
    cases negative with
    | true => exact hleast
    | false => exact hgreatest
  | finite negative mantissa exponent => exact clip_mem h _

/-- Every sample that bytes stand for is in range. -/
theorem value_mem (h : (-1 : σ) < 1) (c : Coding) (bs : List UInt8) :
    -1 ≤ (c.value bs : σ) ∧ (c.value bs : σ) ≤ 1 := by
  cases c with
  | unsigned8 | signed16 | signed24 => exact clip_mem h _
  | float32 => exact ofBinary_mem h _

end Coding

/-! ## Files -/

namespace WaveFile

theorem exists_of_bind_eq_ok {ε α β : Type} {x : Except ε α} {f : α → Except ε β} {b : β}
    (h : x >>= f = .ok b) : ∃ a, f a = .ok b := by
  cases x with
  | error e => cases h
  | ok a => exact ⟨a, h⟩

/-- The recording of a file has the channels and the rate of its format, and the samples of its
data. -/
theorem eq_ofData_of_decode {σ : Type} [Scalar σ] [Dyadic σ] {file : Bytes} {master : Option σ}
    {r : Recording σ} (h : decode file master = .ok r) :
    ∃ (f : Format) (coding : Coding) (data : Bytes),
      r = .ofData f.channels f.rate (coding.values data) master := by
  obtain ⟨stop, h⟩ := exists_of_bind_eq_ok h
  obtain ⟨f, h⟩ := exists_of_bind_eq_ok h
  obtain ⟨data, h⟩ := exists_of_bind_eq_ok h
  obtain ⟨coding, h⟩ := exists_of_bind_eq_ok h
  exact ⟨f, coding, data, (Except.ok.inj h).symm⟩

theorem inRange_of_decode {σ : Type} [Scalar σ] [Scalar.Ordered σ] [Dyadic σ]
    (hone : (-1 : σ) < 1) {file : Bytes} {master : Option σ} {r : Recording σ}
    (h : decode file master = .ok r) : r.InRange := by
  obtain ⟨f, coding, data, rfl⟩ := eq_ofData_of_decode h
  intro x hx
  obtain ⟨i, rfl⟩ := Array.mem_ofFn.1 hx
  exact coding.value_mem hone _

/-- Whatever bytes are read as a file, all samples are in range, nothing is read beyond them however
they are played, and the end is silent. Where nothing is rounded, the mean of the channels is in
range as well. -/
theorem decode_safe (file : Bytes) :
    (∀ (master : Option Float32) (r : Recording Float32), decode file master = .ok r → r.Safe) ∧
    (∀ (master : Option Rat) (r : Recording Rat), decode file master = .ok r →
      r.Safe ∧ ∀ frame, -1 ≤ r.mono frame ∧ r.mono frame ≤ 1) := by
  constructor
  · intro master r h
    exact (inRange_of_decode (by decide) h).safe
  · intro master r h
    have hrange : r.InRange := inRange_of_decode (by decide +kernel) h
    refine ⟨hrange.safe, fun frame => abs_le.1 ?_⟩
    rw [← Scalar.ofField_rat] at hrange ⊢
    exact hrange.abs_mono_le frame

/-- A file with two channels, whose second frame is cut off. The samples are no number and the two
infinities, with a byte too much behind them. -/
def hostile : Bytes :=
  (name "RIFF" ++ LittleEndian.bytes 4 49 ++ name "WAVE" ++
    name "fmt " ++ LittleEndian.bytes 4 16 ++ LittleEndian.bytes 2 Coding.floatCode ++
      [2, 0, 0x40, 0x1f, 0, 0, 0, 0, 0, 0, 0, 0, 32, 0] ++
    name "data" ++ LittleEndian.bytes 4 13 ++
      [0, 0, 0xc0, 0x7f, 0, 0, 0x80, 0x7f, 0, 0, 0x80, 0xff, 1]).toArray

theorem exists_of_toOption_map {ε α β : Type} {x : Except ε α} {f : α → β} {b : β}
    (h : x.toOption.map f = some b) : ∃ a, x = .ok a ∧ f a = b := by
  cases x with
  | error e => cases h
  | ok a => exact ⟨a, rfl, Option.some.inj h⟩

theorem decode_safe_hostile :
    (∃ r : Recording Float32, decode hostile none = .ok r ∧ (r.channels, r.data.size) = (2, 3) ∧
      r.Safe) ∧
    ∃ r : Recording Rat, decode hostile none = .ok r ∧ (r.channels, r.data) = (2, #[-1, 1, -1]) ∧
      r.Safe ∧ ∀ frame, -1 ≤ r.mono frame ∧ r.mono frame ≤ 1 := by
  obtain ⟨hfloat, hexact⟩ := decode_safe hostile
  obtain ⟨r, hr, hsize⟩ : ∃ r : Recording Float32, decode hostile none = .ok r ∧
      (r.channels, r.data.size) = (2, 3) := exists_of_toOption_map (by decide +kernel)
  obtain ⟨s, hs, hdata⟩ : ∃ s : Recording Rat, decode hostile none = .ok s ∧
      (s.channels, s.data) = (2, #[-1, 1, -1]) := exists_of_toOption_map (by decide +kernel)
  exact ⟨⟨r, hr, hsize, hfloat none r hr⟩, s, hs, hdata, hexact none s hs⟩

end WaveFile

end MusicMacro
