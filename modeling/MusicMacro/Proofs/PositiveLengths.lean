import MusicMacro.Proofs.Events
import MusicMacro.Proofs.NoteLength.Fraction
import MusicMacro.Proofs.VoiceHistory

/-!
# Positive lengths

No note, rest or stroke is of length zero, whatever the text is, and no default length becomes
zero. Sums and products of positive lengths are positive, also where they do not fit and the left
operand stands unchanged. The one zero is where the sum of the numbers of a text starts: if nothing
is added to it, the default length is taken.

* `Positive` — a numerator and a denominator of at least one.
* `positive_add`, `positive_mul` — the operations.
* `LengthText.positive_value` — what a text writes is positive, if the default length is.
* `Melody.positive_play`, `Percussion.positive_play` — whole texts.
* `PositiveVoices`, `PositiveVoices.run` — the voices of a session.
* `lengths_positive` — the result.
-/

namespace MusicMacro

/-! ## Operations -/

namespace NoteLength

variable {a b : NoteLength}

/-- Both terms are at least one. -/
def Positive (a : NoteLength) : Prop := 1 ≤ a.numerator ∧ 1 ≤ a.denominator

instance (a : NoteLength) : Decidable a.Positive := inferInstanceAs (Decidable (_ ∧ _))

theorem positive_whole : whole.Positive := by decide

theorem positive_half : half.Positive := by decide

theorem positive_quarter : quarter.Positive := by decide

theorem positive_reduced {n d : Nat} (hn : 1 ≤ n) (hd : 1 ≤ d) : (reduced n d).Positive := by
  have hg : 0 < Nat.gcd n d := Nat.gcd_pos_of_pos_left d hn
  exact ⟨Nat.div_pos (Nat.le_of_dvd hn (Nat.gcd_dvd_left n d)) hg,
    Nat.div_pos (Nat.le_of_dvd hd (Nat.gcd_dvd_right n d)) hg⟩

theorem positive_of_add? {c : NoteLength} (ha : a.Positive) (hb : 1 ≤ b.denominator)
    (h : add? a b = some c) : c.Positive := by
  simp only [add?, bind, Option.bind_eq_some_iff, fit?_eq_some] at h
  obtain ⟨d, ⟨-, rfl⟩, m, ⟨-, rfl⟩, n, -, s, ⟨-, rfl⟩, ⟨⟩⟩ := h
  rw [div_gcd_mul]
  have hpos : 0 < Nat.lcm a.denominator b.denominator := Nat.lcm_pos ha.2 hb
  have hscale := Nat.div_pos (Nat.le_of_dvd hpos (Nat.dvd_lcm_left _ _)) ha.2
  exact positive_reduced (Nat.le_add_right_of_le (Nat.mul_pos hscale ha.1)) hpos

/-- A sum is positive if its left operand is, also where the sum does not fit. -/
theorem positive_add (ha : a.Positive) (hb : 1 ≤ b.denominator) : (a + b).Positive := by
  cases h : add? a b with
  | none =>
    rw [add_of_none h]
    exact ha
  | some c =>
    rw [add_of_some h]
    exact positive_of_add? ha hb h

theorem positive_of_mul? {c : NoteLength} (ha : a.Positive) (hb : b.Positive)
    (h : mul? a b = some c) : c.Positive := by
  simp only [mul?, bind, Option.bind_eq_some_iff, fit?_eq_some] at h
  obtain ⟨n, ⟨-, rfl⟩, d, ⟨-, rfl⟩, ⟨⟩⟩ := h
  have hg : 0 < Nat.gcd a.numerator b.denominator := Nat.gcd_pos_of_pos_left _ ha.1
  have hh : 0 < Nat.gcd a.denominator b.numerator := Nat.gcd_pos_of_pos_left _ ha.2
  refine positive_reduced (Nat.mul_pos ?_ ?_) (Nat.mul_pos ?_ ?_)
  · exact Nat.div_pos (Nat.le_of_dvd ha.1 (Nat.gcd_dvd_left _ _)) hg
  · exact Nat.div_pos (Nat.le_of_dvd hb.1 (Nat.gcd_dvd_right _ _)) hh
  · exact Nat.div_pos (Nat.le_of_dvd ha.2 (Nat.gcd_dvd_left _ _)) hh
  · exact Nat.div_pos (Nat.le_of_dvd hb.2 (Nat.gcd_dvd_right _ _)) hg

/-- A product of positive lengths is positive, also where the product does not fit. -/
theorem positive_mul (ha : a.Positive) (hb : b.Positive) : (a * b).Positive := by
  cases h : mul? a b with
  | none =>
    rw [mul_of_none h]
    exact ha
  | some c =>
    rw [mul_of_some h]
    exact positive_of_mul? ha hb h

end NoteLength

open NoteLength (positive_add positive_mul positive_whole positive_half positive_quarter)

/-! ## Written lengths -/

namespace LengthText

theorem positive_base (t : LengthText) {default : NoteLength} (h : default.Positive) :
    (t.base default).Positive := by
  unfold base
  dsimp only
  split
  · exact h
  · next hzero =>
    have hne : (t.parts.foldl (· + ·) NoteLength.zero).numerator ≠ 0 := by
      simpa [NoteLength.isZero] using hzero
    exact ⟨Nat.pos_of_ne_zero hne, t.normal_parts.1⟩

theorem positive_extend {base : NoteLength} (hb : base.Positive) (suffixes : List Suffix)
    {length dot : NoteLength} (hl : length.Positive) (hd : dot.Positive) :
    (extend base suffixes length dot).Positive := by
  induction suffixes generalizing length dot with
  | nil => exact hl
  | cons s rest ih =>
    cases s with
    | hold => exact ih (positive_add hl hb.2) hd
    | dot => exact ih (positive_add hl hd.2) (positive_mul hd positive_half)

/-- What a text writes is positive, if the default length is. -/
theorem positive_value (t : LengthText) {default : NoteLength} (h : default.Positive) :
    (t.value default).Positive :=
  have hb := t.positive_base h
  positive_extend hb t.suffixes hb (positive_mul hb positive_half)

end LengthText

/-! ## Melodies -/

namespace Melody

theorem positive_next {s : State} (hs : s.length.Positive) (c : Command) :
    (c.next s).length.Positive := by
  cases c with
  | setLength length => exact length.positive_value hs
  | _ => exact hs

theorem positive_note {s : State} (hs : s.length.Positive) {c : Command} {n : Note}
    (h : c.note? s = some n) : n.length.Positive := by
  cases c with
  | tone _ _ length => cases h; exact length.positive_value hs
  | rest length => cases h; exact length.positive_value hs
  | setLength | octaveUp | octaveDown => cases h

theorem positive_notes {s : State} (hs : s.length.Positive) (commands : List Command) :
    ∀ n ∈ notes s commands, n.length.Positive := by
  induction commands generalizing s with
  | nil => simp [notes]
  | cons c rest ih =>
    intro n hn
    rw [notes, List.mem_append, Option.mem_toList] at hn
    obtain hn | hn := hn
    · exact positive_note hs hn
    · exact ih (positive_next hs c) n hn

theorem positive_final {s : State} (hs : s.length.Positive) (commands : List Command) :
    (final s commands).length.Positive := by
  induction commands generalizing s with
  | nil => exact hs
  | cons c rest ih => exact ih (positive_next hs c)

/-- Every note of a text is of positive length, and so is the default length after it. -/
theorem positive_play (tokens : Tokens) {s : State} (hs : s.length.Positive) (text : List Char) :
    (∀ n ∈ (play tokens s text).1, n.length.Positive) ∧ (play tokens s text).2.length.Positive :=
  ⟨positive_notes hs _, positive_final hs _⟩

end Melody

/-! ## Percussion -/

namespace Percussion

variable {δ : Type} {tokens : Tokens}

/-- There is no factor for the strokes, or a positive one. -/
def Tokens.ScalePositive (tokens : Tokens) : Prop := ∀ a ∈ tokens.scale, a.Positive

theorem positive_factor (ht : tokens.ScalePositive) (unscaled : Bool) :
    (tokens.factor unscaled).Positive := by
  unfold Tokens.factor
  cases unscaled with
  | true => exact positive_whole
  | false =>
    cases h : tokens.scale with
    | none => exact positive_whole
    | some a => exact ht a h

theorem positive_next {s : State} (hs : s.length.Positive) (c : Command δ) :
    (c.next s).length.Positive := by
  cases c with
  | setLength length => exact length.positive_value hs
  | _ => exact hs

theorem positive_beat (ht : tokens.ScalePositive) {s : State} (hs : s.length.Positive)
    {c : Command δ} {b : Beat δ} (h : c.beat? tokens s = some b) : b.length.Positive := by
  cases c with
  | stroke _ unscaled length =>
    cases h
    exact positive_mul (length.positive_value hs) (positive_factor ht unscaled)
  | rest length => cases h; exact length.positive_value hs
  | setLength => cases h

theorem positive_beats (ht : tokens.ScalePositive) {s : State} (hs : s.length.Positive)
    (commands : List (Command δ)) : ∀ b ∈ beats tokens s commands, b.length.Positive := by
  induction commands generalizing s with
  | nil => simp [beats]
  | cons c rest ih =>
    intro b hb
    rw [beats, List.mem_append, Option.mem_toList] at hb
    obtain hb | hb := hb
    · exact positive_beat ht hs hb
    · exact ih (positive_next hs c) b hb

theorem positive_final {s : State} (hs : s.length.Positive) (commands : List (Command δ)) :
    (final s commands).length.Positive := by
  induction commands generalizing s with
  | nil => exact hs
  | cons c rest ih => exact ih (positive_next hs c)

/-- Every beat of a text is of positive length, and so is the default length after it. -/
theorem positive_play (ht : tokens.ScalePositive) (kit : Kit δ) {s : State}
    (hs : s.length.Positive) (text : List Char) :
    (∀ b ∈ (play tokens kit s text).1, b.length.Positive) ∧
      (play tokens kit s text).2.length.Positive :=
  ⟨positive_beats ht hs _, positive_final hs _⟩

end Percussion

/-! ## Voices -/

section

variable {τ σ : Type}

theorem Voice.length_toMelody (v : Voice) : v.toMelody.length = v.length := by
  cases v <;> rfl

theorem Voice.length_toPercussion (v : Voice) : v.toPercussion.length = v.length := by
  cases v <;> rfl

theorem Fragment.positive_melodyStart {previous : Option Voice}
    (h : ∀ v ∈ previous, v.length.Positive) : (melodyStart previous).length.Positive := by
  cases previous with
  | none => exact positive_quarter
  | some v => exact v.length_toMelody.symm ▸ h v rfl

theorem Fragment.positive_percussionStart {previous : Option Voice}
    (h : ∀ v ∈ previous, v.length.Positive) : (percussionStart previous).length.Positive := by
  cases previous with
  | none => exact positive_quarter
  | some v => exact v.length_toPercussion.symm ▸ h v rfl

/-- The events of a fragment are of positive length. -/
theorem Fragment.positive_events (f : Fragment) {setup : Setup τ σ} {previous : Option Voice}
    (ht : setup.percussion.ScalePositive) (h : ∀ v ∈ previous, v.length.Positive) :
    ∀ e ∈ f.events setup previous, e.length.Positive := by
  intro e he
  unfold events at he
  split at he
  · obtain ⟨b, hb, rfl⟩ := List.mem_map.1 he
    exact (Percussion.positive_play ht _ (positive_percussionStart h) _).1 b hb
  · obtain ⟨n, hn, rfl⟩ := List.mem_map.1 he
    exact (Melody.positive_play _ (positive_melodyStart h) _).1 n hn

namespace Sequencer

/-- A fragment leaves its voice with a positive default length. -/
theorem positive_stepped (setup : Setup τ σ) {previous : Option Voice}
    (h : ∀ v ∈ previous, v.length.Positive) (text : List Char) :
    (stepped setup previous text).length.Positive := by
  unfold stepped
  split
  · exact Percussion.positive_final (Fragment.positive_percussionStart h) _
  · exact Melody.positive_final (Fragment.positive_melodyStart h) _

/-- Every voice has a positive default length. -/
def PositiveVoices (s : Sequencer τ σ) : Prop := ∀ i, ∀ v ∈ s.voice? i, v.length.Positive

variable [Scalar τ] [Scalar σ] [Tuned τ]

theorem PositiveVoices.submit {s : Sequencer τ σ} (hs : s.PositiveVoices)
    (texts : List (List Char)) : (s.submit texts).sequencer.PositiveVoices := by
  intro i v hv
  cases hr : (s.submit texts).result with
  | error e =>
    rw [voice?_submit_error hr] at hv
    exact hs i v hv
  | ok sub =>
    rw [voice?_submit_ok hr] at hv
    cases ht : texts[i]? with
    | none =>
      rw [ht, Option.map_none, Option.none_or] at hv
      exact hs i v hv
    | some text =>
      rw [ht, Option.map_some, Option.some_or] at hv
      cases hv
      exact positive_stepped s.setup (hs i) text

theorem PositiveVoices.move (s : Sequencer τ σ) (m : Move τ) (hs : s.PositiveVoices) :
    (s.move m).PositiveVoices := by
  cases m with
  | submit texts => exact hs.submit texts
  | stop =>
    intro i v hv
    exact hs i v (voice?_stop s i ▸ hv)
  | reset =>
    intro i v hv
    cases hv
  | _ => exact hs

theorem PositiveVoices.run {setup : Setup τ σ} {s : Sequencer τ σ} (h : create setup = .ok s)
    (moves : List (Move τ)) : (s.run moves).PositiveVoices := by
  obtain ⟨-, rfl⟩ := create_eq_ok_iff.1 h
  refine run_invariant PositiveVoices.move ?_ moves
  intro i v hv
  cases hv

/-- Every note of a text is of positive length, and so is every beat if strokes are scaled by a
positive factor or not at all; the default length stays positive. So in every session each voice has
a positive default length, or none yet, and whatever it is given next has events of positive length
only. -/
theorem lengths_positive :
    (∀ (tokens : Melody.Tokens) (text : List Char) (s : Melody.State), s.length.Positive →
      (∀ n ∈ (Melody.play tokens s text).1, n.length.Positive) ∧
        (Melody.play tokens s text).2.length.Positive) ∧
    (∀ (δ : Type) (tokens : Percussion.Tokens) (kit : Percussion.Kit δ) (text : List Char)
      (s : Percussion.State), tokens.ScalePositive → s.length.Positive →
      (∀ b ∈ (Percussion.play tokens kit s text).1, b.length.Positive) ∧
        (Percussion.play tokens kit s text).2.length.Positive) ∧
    ∀ (setup : Setup τ σ) (s : Sequencer τ σ), create setup = .ok s →
      setup.percussion.ScalePositive → ∀ (moves : List (Move τ)) (i : Nat),
      (∀ v ∈ (s.run moves).voice? i, v.length.Positive) ∧
        ∀ text, ∀ e ∈ (Fragment.ofText text).events setup ((s.run moves).voice? i),
          e.length.Positive := by
  refine ⟨fun tokens text s hs => Melody.positive_play tokens hs text,
    fun δ tokens kit text s ht hs => Percussion.positive_play ht kit hs text, ?_⟩
  intro setup s h ht moves i
  have hvoices := PositiveVoices.run h moves i
  exact ⟨hvoices, fun text => (Fragment.ofText text).positive_events ht hvoices⟩

end Sequencer

end

namespace Sequencer

open scoped Octaves

/-- Zero, a number beyond 64 bits, and sums that overflow, on the way to the default length. -/
def outOfRange : List Char := "l0l18446744073709551616l18446744073709551615&2.c0^".toList

theorem lengths_positive_outOfRange :
    let s : Sequencer Rat Rat := fresh .default
    (Melody.play Dialect.standardMelody .start outOfRange).1 =
        [⟨some 36, ⟨4, 18446744073709551615⟩⟩] ∧
      (∀ n ∈ (Melody.play Dialect.standardMelody .start outOfRange).1, n.length.Positive) ∧
      (∀ b ∈ (Percussion.play Dialect.japanesePercussion ([] : Percussion.Kit Nat) .start
        outOfRange).1, b.length.Positive) ∧
      ∀ e ∈ (Fragment.ofText outOfRange).events (.default : Setup Rat Rat)
        ((s.run [.submit [outOfRange]]).voice? 0), e.length.Positive := by
  intro s
  have hcreate : create .default = .ok s := create_eq_ok_iff.2 ⟨by decide +kernel, rfl⟩
  have hstart : NoteLength.quarter.Positive := by decide
  have hhalf : Dialect.japanesePercussion.ScalePositive := by
    intro a ha
    cases ha
    decide
  have hnone : (Setup.default : Setup Rat Rat).percussion.ScalePositive := by
    intro a ha
    cases ha
  have h := lengths_positive (τ := Rat) (σ := Rat)
  exact ⟨by decide +kernel, (h.1 _ _ _ hstart).1, (h.2.1 _ _ _ _ _ hhalf hstart).1,
    (h.2.2 .default s hcreate hnone _ 0).2 outOfRange⟩

end Sequencer

end MusicMacro
