import MusicMacro.Proofs.Sound.Tail
import MusicMacro.Proofs.Superposition

/-!
# No drift

The times of a phrase are exact and each is rounded to a sample on its own, so errors do not add up:
the first sample of a tone is half a sample away from where it should be, at most, no matter how
much has been played before it. A tone is held for a number of samples that is rounded as well, so
between two tones of which one follows the other there may be a gap or an overlap, of one sample.

* `Phrase.Stands` — a part of a phrase, and what passes before it.
* `Phrase.mem_tones_iff` — a tone starts when all that passes before it has passed.
* `Scalar.abs_nearest_add_nearest_sub_le` — a sum of rounded numbers and a rounded sum.
* `Phrase.Forward.onTime` — the places of all tones of a phrase.
-/

namespace MusicMacro

open Scalar (nearest sampleIndex abs_nearest_sub_le nearest_eq_round)

/-! ## Rounding -/

/-- Two numbers that are rounded and their sum that is rounded differ by one at most. -/
theorem Scalar.abs_nearest_add_nearest_sub_le {a b : Rat} (ha : 0 ≤ a) (hb : 0 ≤ b) :
    |((nearest a + nearest b : Nat) : Int) - nearest (a + b)| ≤ 1 := by
  have hfirst := abs_le.1 (abs_nearest_sub_le ha)
  have hsecond := abs_le.1 (abs_nearest_sub_le hb)
  have hboth := abs_le.1 (abs_nearest_sub_le (add_nonneg ha hb))
  have hlow : -2 < (((nearest a + nearest b : Nat) : Int) - nearest (a + b) : Int) := by
    have h : (-2 : Rat) < nearest a + nearest b - nearest (a + b) := by linarith
    exact_mod_cast h
  have hhigh : (((nearest a + nearest b : Nat) : Int) - nearest (a + b) : Int) < 2 := by
    have h : (nearest a + nearest b - nearest (a + b) : Rat) < 2 := by linarith
    exact_mod_cast h
  rw [abs_le]
  omega

theorem Scalar.cast_nearest_eq_round {a : Rat} (h : 0 ≤ a) : (nearest a : Int) = round a := by
  have hround : 0 ≤ round a := by
    rw [round_eq]
    positivity
  rw [nearest_eq_round, Int.toNat_of_nonneg hround]

namespace Phrase

/-! ## Parts of a phrase -/

section

variable {τ σ : Type}

/-- A part of a phrase, which may be the whole, and the phrases that pass before it: those that
stand before it in its sequence, and before that in the sequences around it. -/
inductive Stands : Phrase τ σ → List (Phrase τ σ) → Phrase τ σ → Prop
  | self (p : Phrase τ σ) : Stands p [] p
  | sequence {p q : Phrase τ σ} {passed : List (Phrase τ σ)} (before after : List (Phrase τ σ))
      (h : Stands p passed q) : Stands (.sequence (before ++ p :: after)) (before ++ passed) q
  | parallel {p q : Phrase τ σ} {passed ps : List (Phrase τ σ)} (hp : p ∈ ps)
      (h : Stands p passed q) : Stands (.parallel ps) passed q

variable {p q r : Phrase τ σ} {passed later : List (Phrase τ σ)}

theorem Stands.trans (h : p.Stands passed q) (hq : q.Stands later r) :
    p.Stands (passed ++ later) r := by
  induction h with
  | self p => exact hq
  | sequence before after _ ih =>
    rw [List.append_assoc]
    exact .sequence before after (ih hq)
  | parallel hp _ ih => exact .parallel hp (ih hq)

/-- An element of a sequence stands after those before it. -/
theorem stands_sequence (before : List (Phrase τ σ)) (p : Phrase τ σ) (after : List (Phrase τ σ)) :
    (sequence (before ++ p :: after)).Stands before p := by
  simpa using Stands.sequence before after (.self p)

/-- Of two elements of a sequence next to each other, one stands behind the other. -/
theorem Stands.inTurn {before after : List (Phrase τ σ)}
    (h : p.Stands passed (.sequence (before ++ q :: r :: after))) :
    p.Stands (passed ++ before) q ∧ p.Stands (passed ++ before ++ [q]) r := by
  refine ⟨h.trans (stands_sequence before q (r :: after)), ?_⟩
  have hlast := stands_sequence (before ++ [q]) r after
  rw [List.append_assoc] at hlast ⊢
  exact h.trans hlast

variable [Scalar τ]

/-- All that stands in a phrase that goes forward does so, and so does what passes before it. -/
theorem Stands.forward (h : p.Stands passed q) (hp : p.Forward) :
    (∀ r ∈ passed, r.Forward) ∧ q.Forward := by
  induction h with
  | self p => exact ⟨nofun, hp⟩
  | sequence before after _ ih =>
    rw [forward_sequence_iff, List.forall_mem_append, List.forall_mem_cons] at hp
    obtain ⟨hbefore, hfirst, -⟩ := hp
    obtain ⟨hpassed, hq⟩ := ih hfirst
    exact ⟨List.forall_mem_append.2 ⟨hbefore, hpassed⟩, hq⟩
  | parallel hmem _ ih => exact ih (forward_parallel_iff.1 hp _ hmem)

end

/-! ## Times -/

variable {σ : Type} {p q : Phrase Rat σ} {passed : List (Phrase Rat σ)}

/-- The time for some phrases to pass, one after the other. -/
def elapsed (passed : List (Phrase Rat σ)) : Rat := (passed.map duration).sum

theorem elapsed_append (passed later : List (Phrase Rat σ)) :
    elapsed (passed ++ later) = elapsed passed + elapsed later := by
  rw [elapsed, List.map_append, List.sum_append]
  rfl

theorem elapsed_singleton (p : Phrase Rat σ) : elapsed [p] = p.duration := List.sum_singleton

theorem elapsed_nonneg (h : ∀ p ∈ passed, p.Forward) : 0 ≤ elapsed passed := by
  apply List.sum_nonneg
  intro d hd
  obtain ⟨p, hp, rfl⟩ := List.mem_map.1 hd
  exact (h p hp).duration_nonneg

/-- In a phrase that goes forward nothing starts before the phrase. -/
theorem Stands.start_nonneg (h : p.Stands passed q) (hp : p.Forward) {start : Rat}
    (hs : 0 ≤ start) : 0 ≤ start + elapsed passed :=
  add_nonneg hs (elapsed_nonneg (h.forward hp).1)

/-- What stands in a phrase has its tones among those of the phrase. -/
theorem Stands.tones_subset (h : p.Stands passed q) (start : Rat) :
    q.tones (start + elapsed passed) ⊆ p.tones start := by
  induction h generalizing start with
  | self p =>
    rw [show start + elapsed [] = start from add_zero start]
    exact List.Subset.refl _
  | sequence before after _ ih =>
    rw [tones, tonesInTurn_append, tonesInTurn, total_eq, elapsed_append, ← add_assoc]
    exact List.Subset.trans (ih _)
      (List.Subset.trans (List.subset_append_left _ _) (List.subset_append_right _ _))
  | parallel hp _ ih =>
    rw [tones, tonesTogether_eq]
    exact fun r hr => List.mem_flatMap.2 ⟨_, hp, ih start hr⟩

mutual

/-- Every tone of a phrase stands in it. -/
theorem exists_stands (p : Phrase Rat σ) (start : Rat) {q : Placed Rat σ}
    (hq : q ∈ p.tones start) :
    ∃ passed, p.Stands passed (.tone q.tone) ∧ q.start = start + elapsed passed := by
  cases p with
  | tone t =>
    rw [tones, List.mem_singleton] at hq
    subst hq
    exact ⟨[], .self _, (add_zero start).symm⟩
  | silence d =>
    rw [tones] at hq
    cases hq
  | sequence ps =>
    rw [tones] at hq
    obtain ⟨before, p, after, passed, rfl, hstands, hstart⟩ := exists_stands_inTurn ps start hq
    exact ⟨before ++ passed, .sequence before after hstands, hstart⟩
  | parallel ps =>
    rw [tones] at hq
    obtain ⟨p, hp, passed, hstands, hstart⟩ := exists_stands_together ps start hq
    exact ⟨passed, .parallel hp hstands, hstart⟩

theorem exists_stands_inTurn (ps : List (Phrase Rat σ)) (start : Rat) {q : Placed Rat σ}
    (hq : q ∈ tonesInTurn start ps) : ∃ before p after passed, ps = before ++ p :: after ∧
      p.Stands passed (.tone q.tone) ∧ q.start = start + elapsed (before ++ passed) := by
  cases ps with
  | nil =>
    rw [tonesInTurn] at hq
    cases hq
  | cons p ps =>
    rw [tonesInTurn, List.mem_append] at hq
    rcases hq with hq | hq
    · obtain ⟨passed, hstands, hstart⟩ := exists_stands p start hq
      exact ⟨[], p, ps, passed, rfl, hstands, hstart⟩
    · obtain ⟨before, p', after, passed, rfl, hstands, hstart⟩ := exists_stands_inTurn ps _ hq
      exact ⟨p :: before, p', after, passed, rfl, hstands, hstart.trans (add_assoc _ _ _)⟩

theorem exists_stands_together (ps : List (Phrase Rat σ)) (start : Rat) {q : Placed Rat σ}
    (hq : q ∈ tonesTogether start ps) :
    ∃ p ∈ ps, ∃ passed, p.Stands passed (.tone q.tone) ∧ q.start = start + elapsed passed := by
  cases ps with
  | nil =>
    rw [tonesTogether] at hq
    cases hq
  | cons p ps =>
    rw [tonesTogether, List.mem_append] at hq
    rcases hq with hq | hq
    · exact ⟨p, List.mem_cons_self, exists_stands p start hq⟩
    · obtain ⟨p', hp', h⟩ := exists_stands_together ps start hq
      exact ⟨p', List.mem_cons_of_mem p hp', h⟩

end

/-- The tones of a phrase are those that stand in it. Each starts when all has passed that stands
before it. -/
theorem mem_tones_iff {start : Rat} {q : Placed Rat σ} : q ∈ p.tones start ↔
    ∃ passed, p.Stands passed (.tone q.tone) ∧ q.start = start + elapsed passed := by
  constructor
  · exact exists_stands p start
  · rintro ⟨passed, hstands, hstart⟩
    apply hstands.tones_subset start
    rw [tones, ← hstart]
    exact List.mem_singleton_self q

/-! ## Places -/

/-- The place of the first sample of what starts when some phrases have passed. -/
def firstPlace (start : Rat) (rate : Nat) (passed : List (Phrase Rat σ)) : Nat :=
  sampleIndex (start + elapsed passed) rate

/-- Between a tone that is held and what starts at its end is one sample at most, be it a gap or an
overlap. -/
theorem abs_firstPlace_add_held_sub_le {start : Rat} (rate : Nat) {later : List (Phrase Rat σ)}
    {t : Tone Rat σ} (hstart : 0 ≤ start + elapsed passed) (ht : 0 ≤ t.duration)
    (h : elapsed later = elapsed passed + t.duration) :
    |((firstPlace start rate passed + t.heldSamples rate : Nat) : Int) -
      firstPlace start rate later| ≤ 1 := by
  have hrate : (0 : Rat) ≤ rate := rate.cast_nonneg
  have hlater : (start + elapsed later) * rate =
      (start + elapsed passed) * rate + t.duration * rate := by
    rw [h]
    ring
  unfold firstPlace Tone.heldSamples sampleIndex
  rw [hlater]
  exact Scalar.abs_nearest_add_nearest_sub_le (mul_nonneg hstart hrate) (mul_nonneg ht hrate)

/-! ## Being on time -/

/-- A phrase that is mixed without a cut-off is on time. -/
structure OnTime [Circular Rat] (p : Phrase Rat Rat) (start : Rat) (rate : Nat)
    (buffer : Array Rat) : Prop where
  /-- What is added are the samples of its tones, each from the first place of its tone on. -/
  mixed : ∀ k, (p.mixInto start none rate buffer)[k]?.getD 0 =
    buffer[k]?.getD 0 + ((p.tones start).map (Placed.sampleAt rate k)).sum
  /-- A tone starts when all has passed that stands before it. -/
  tones : ∀ q, q ∈ p.tones start ↔
    ∃ passed, p.Stands passed (.tone q.tone) ∧ q.start = start + elapsed passed
  /-- The first place is the start in samples, rounded, and not more than half a sample away. -/
  first : ∀ passed q, p.Stands passed q →
    (firstPlace start rate passed : Int) = round ((start + elapsed passed) * rate) ∧
      |(firstPlace start rate passed : Rat) - (start + elapsed passed) * rate| ≤ 1 / 2
  /-- When a tone starts at the end of another one, its first place and the place after the last
  sample for which the other is held differ by one at most. -/
  next : ∀ passed later t u, p.Stands passed (.tone t) → p.Stands later (.tone u) →
    elapsed later = elapsed passed + t.duration →
      |((firstPlace start rate passed + t.heldSamples rate : Nat) : Int) -
        firstPlace start rate later| ≤ 1
  /-- So it is when one stands behind the other in a sequence. -/
  inTurn : ∀ passed before t u after,
    p.Stands passed (.sequence (before ++ .tone t :: .tone u :: after)) →
      p.Stands (passed ++ before) (.tone t) ∧
      p.Stands (passed ++ before ++ [.tone t]) (.tone u) ∧
      |((firstPlace start rate (passed ++ before) + t.heldSamples rate : Nat) : Int) -
        firstPlace start rate (passed ++ before ++ [.tone t])| ≤ 1

/-- Every phrase that goes forward is on time, however much of it has passed. -/
theorem Forward.onTime [Circular Rat] {p : Phrase Rat Rat} (hp : p.Forward) {start : Rat}
    (hs : 0 ≤ start) (rate : Nat) (buffer : Array Rat) : p.OnTime start rate buffer where
  mixed k := by rw [Phrase.mixInto_eq, getD_foldl_mixPlaced]
  tones _ := mem_tones_iff
  first passed q h := by
    have hscaled := mul_nonneg (h.start_nonneg hp hs) (rate.cast_nonneg (α := Rat))
    exact ⟨Scalar.cast_nearest_eq_round hscaled, abs_nearest_sub_le hscaled⟩
  next passed later t u ht hu hend :=
    abs_firstPlace_add_held_sub_le rate (ht.start_nonneg hp hs) (ht.forward hp).2.duration_nonneg
      hend
  inTurn passed before t u after h := by
    obtain ⟨ht, hu⟩ := h.inTurn
    refine ⟨ht, hu, abs_firstPlace_add_held_sub_le rate (ht.start_nonneg hp hs)
      (ht.forward hp).2.duration_nonneg ?_⟩
    rw [elapsed_append, elapsed_singleton, duration]

section

open scoped Octaves

/-- Two and a half samples, at ten samples in a second. -/
def blip : Tone Rat Rat := ⟨1 / 4, 1 / 10, 1, .oscillator .square, ⟨0, 0, 1, 0⟩⟩

/-- Two tones in a row, after half a sample. -/
def blips : Phrase Rat Rat := .sequence [.silence (1 / 20), .sequence [.tone blip, .tone blip]]

theorem forward_blips : blips.Forward := by
  have hsilence : (0 : Rat) ≤ 1 / 20 := by decide +kernel
  have htone : (.tone blip : Phrase Rat Rat).Forward := .tone (by decide +kernel)
  simpa [blips, htone] using Forward.silence hsilence

/-- Both tones are held for three samples, and the second one starts two samples after the first. -/
theorem onTime_blips :
    blips.mixInto 0 none 10 #[] = #[0, 1, 1, 2, 1, 1] ∧ blips.OnTime 0 10 #[] ∧
      firstPlace (σ := Rat) 0 10 [.silence (1 / 20)] = 1 ∧ blip.heldSamples 10 = 3 ∧
      firstPlace 0 10 [.silence (1 / 20), .tone blip] = 3 :=
  ⟨by decide +kernel, forward_blips.onTime le_rfl 10 #[], by decide +kernel, by decide +kernel,
    by decide +kernel⟩

end

end Phrase

end MusicMacro
