import MusicMacro.Proofs.Extent
import MusicMacro.Proofs.Truncation

/-!
# Superposition

With exact samples a phrase adds to a buffer at every place what its tones have there, each from its
own start. A sum does not depend on its order, so neither does the buffer, although it grows while
it is filled and the tones are met one after the other.

* `Placed.sampleAt` — what a tone has at a place.
* `Phrase.tonesInTurn_eq` — in a sequence a phrase starts when those before it have passed.
* `Phrase.addAt_right_comm` — samples may be added in any order, which leaves the same buffer, also
  of the same size.
* `Phrase.Rearranged` — the order of what starts together, and the nesting of sequences in sequences
  and of parallel phrases in parallel phrases. `Phrase.Rearranged.perm_tones` keeps the tones.
* `Timeline.render_of_perm` — entries may stand in any order, wherever they are cut off.
* `mixing_superposes` — mixing is the sum of the tones, and what follows from that.
-/

namespace MusicMacro

open Scalar

/-- What a tone adds at a place: nothing before its first sample and nothing behind its last. -/
def Placed.sampleAt {τ σ : Type} [Scalar τ] [Scalar σ] [Circular σ] [Narrow τ σ] (rate k : Nat)
    (q : Placed τ σ) : σ :=
  if k < sampleIndex q.start rate then 0
  else (q.tone.samples rate)[k - sampleIndex q.start rate]?.getD 0

namespace Phrase

/-! ## Where the tones are -/

section

variable {σ : Type}

/-- In a sequence each phrase starts when those before it have passed. -/
theorem tonesInTurn_eq (start : Rat) (ps : List (Phrase Rat σ)) : tonesInTurn start ps =
    (ps.mapIdx fun i p => p.tones (start + ((ps.take i).map duration).sum)).flatten := by
  induction ps generalizing start with
  | nil => rw [tonesInTurn]; rfl
  | cons p ps ih =>
    rw [tonesInTurn, ih, List.mapIdx_cons, List.flatten_cons]
    simp [add_assoc]

theorem longest_cases (known : Rat) (ps : List (Phrase Rat σ)) :
    longest known ps = known ∨ ∃ p ∈ ps, longest known ps = p.duration := by
  induction ps generalizing known with
  | nil => exact .inl (by rw [longest])
  | cons p ps ih =>
    rw [longest, larger_eq_max]
    rcases ih (max known p.duration) with heq | ⟨q, hq, heq⟩ <;> rw [heq]
    · rcases max_choice known p.duration with hmax | hmax
      · exact .inl hmax
      · exact .inr ⟨p, List.mem_cons_self, hmax⟩
    · exact .inr ⟨q, List.mem_cons_of_mem p hq, rfl⟩

theorem duration_le_longest (known : Rat) (ps : List (Phrase Rat σ)) :
    ∀ p ∈ ps, p.duration ≤ longest known ps := by
  induction ps generalizing known with
  | nil => exact nofun
  | cons p ps ih =>
    rw [longest, larger_eq_max]
    exact List.forall_mem_cons.2 ⟨le_trans (le_max_right _ _) (le_longest _ ps), ih _⟩

/-- Phrases that start together take as long as the longest of them. -/
theorem exists_duration_parallel {ps : List (Phrase Rat σ)} (hne : ps ≠ [])
    (h : ∀ p ∈ ps, 0 ≤ p.duration) :
    ∃ p ∈ ps, (parallel ps).duration = p.duration ∧ ∀ q ∈ ps, q.duration ≤ p.duration := by
  rw [duration]
  rcases longest_cases 0 ps with hzero | ⟨p, hp, heq⟩
  · -- none of them is longer than nothing, so each is as long as any other
    obtain ⟨p, hp⟩ := List.exists_mem_of_ne_nil ps hne
    have hle := hzero ▸ duration_le_longest 0 ps
    have hp0 : p.duration = 0 := le_antisymm (hle p hp) (h p hp)
    exact ⟨p, hp, by rw [hzero, hp0], by rwa [hp0]⟩
  · exact ⟨p, hp, heq, heq ▸ duration_le_longest 0 ps⟩

end

/-! ## Rearrangements -/

/-- A phrase is made of another one by changing the order of what starts together and by taking
sequences apart within sequences and parallel phrases within parallel phrases, anywhere and either
way. -/
inductive Rearranged {τ σ : Type} : Phrase τ σ → Phrase τ σ → Prop
  | refl (p : Phrase τ σ) : Rearranged p p
  | symm {p q : Phrase τ σ} : Rearranged p q → Rearranged q p
  | trans {p q r : Phrase τ σ} : Rearranged p q → Rearranged q r → Rearranged p r
  | inSequence (ps qs : List (Phrase τ σ)) {p q : Phrase τ σ} : Rearranged p q →
    Rearranged (.sequence (ps ++ p :: qs)) (.sequence (ps ++ q :: qs))
  | inParallel (ps qs : List (Phrase τ σ)) {p q : Phrase τ σ} : Rearranged p q →
    Rearranged (.parallel (ps ++ p :: qs)) (.parallel (ps ++ q :: qs))
  | permute {ps qs : List (Phrase τ σ)} : ps.Perm qs → Rearranged (.parallel ps) (.parallel qs)
  | flattenSequence (ps qs rs : List (Phrase τ σ)) :
    Rearranged (.sequence (ps ++ .sequence qs :: rs)) (.sequence (ps ++ (qs ++ rs)))
  | flattenParallel (ps qs rs : List (Phrase τ σ)) :
    Rearranged (.parallel (ps ++ .parallel qs :: rs)) (.parallel (ps ++ (qs ++ rs)))

section

variable {σ : Type} {p q : Phrase Rat σ}

theorem longest_append (known : Rat) (ps qs : List (Phrase Rat σ)) :
    longest known (ps ++ qs) = longest (longest known ps) qs := by
  rw [longest_eq, longest_eq, longest_eq, List.map_append, List.foldl_append]

/-- The longest of some phrases, together with a time that is not negative. -/
theorem max_longest {known : Rat} (h : 0 ≤ known) (ps : List (Phrase Rat σ)) :
    max known (longest 0 ps) = longest known ps := by
  have hassoc : (ps.map duration).foldl max (max known 0) =
      max known ((ps.map duration).foldl max 0) := List.foldl_assoc
  rw [longest_eq, longest_eq, ← hassoc, max_eq_left h]

/-- A rearrangement takes as long. -/
theorem Rearranged.duration_eq (h : p.Rearranged q) : p.duration = q.duration := by
  induction h with
  | refl p => rfl
  | symm _ ih => exact ih.symm
  | trans _ _ ih ih' => exact ih.trans ih'
  | inSequence ps qs _ ih =>
    rw [duration_sequence, duration_sequence, List.map_append, List.map_append, List.map_cons,
      List.map_cons, ih]
  | inParallel ps qs _ ih =>
    rw [duration_parallel, duration_parallel, List.map_append, List.map_append, List.map_cons,
      List.map_cons, ih]
  | permute h =>
    rw [duration_parallel, duration_parallel]
    exact (h.map duration).foldl_eq' (fun x _ y _ z => max_right_comm z x y) 0
  | flattenSequence ps qs rs =>
    simp only [duration_sequence, List.map_append, List.map_cons, List.sum_append, List.sum_cons]
  | flattenParallel ps qs rs =>
    rw [duration, duration, longest_append, longest, larger_eq_max, duration,
      max_longest (le_longest 0 ps), longest_append, longest_append]

/-- A rearrangement goes forward if the phrase does. -/
theorem Rearranged.forward_iff (h : p.Rearranged q) : p.Forward ↔ q.Forward := by
  induction h with
  | refl p => exact Iff.rfl
  | symm _ ih => exact ih.symm
  | trans _ _ ih ih' => exact ih.trans ih'
  | inSequence ps qs _ ih =>
    rw [forward_sequence_iff, forward_sequence_iff, List.forall_mem_append, List.forall_mem_append,
      List.forall_mem_cons, List.forall_mem_cons, ih]
  | inParallel ps qs _ ih =>
    rw [forward_parallel_iff, forward_parallel_iff, List.forall_mem_append, List.forall_mem_append,
      List.forall_mem_cons, List.forall_mem_cons, ih]
  | permute h => simp only [forward_parallel_iff, h.mem_iff]
  | flattenSequence ps qs rs =>
    simp only [forward_sequence_iff, List.forall_mem_append, List.forall_mem_cons]
  | flattenParallel ps qs rs =>
    simp only [forward_parallel_iff, List.forall_mem_append, List.forall_mem_cons]

/-- A rearrangement has the same tones at the same times. -/
theorem Rearranged.perm_tones (h : p.Rearranged q) (start : Rat) :
    (p.tones start).Perm (q.tones start) := by
  induction h generalizing start with
  | refl p => exact .refl _
  | symm _ ih => exact (ih start).symm
  | trans _ _ ih ih' => exact (ih start).trans (ih' start)
  | inSequence ps qs h ih =>
    rw [tones, tones, tonesInTurn_append, tonesInTurn_append, tonesInTurn, tonesInTurn,
      h.duration_eq]
    exact ((ih _).append_right _).append_left _
  | inParallel ps qs _ ih =>
    rw [tones, tones, tonesTogether_eq, tonesTogether_eq, List.flatMap_append, List.flatMap_append,
      List.flatMap_cons, List.flatMap_cons]
    exact ((ih _).append_right _).append_left _
  | permute h =>
    rw [tones, tones, tonesTogether_eq, tonesTogether_eq]
    exact h.flatMap_right _
  | flattenSequence ps qs rs =>
    have hnext : total start ps + (sequence qs).duration = total (total start ps) qs := by
      rw [duration_sequence, total_eq (total start ps)]
    rw [tones, tones, tonesInTurn_append, tonesInTurn, tones, hnext, tonesInTurn_append,
      tonesInTurn_append]
  | flattenParallel ps qs rs =>
    rw [tones, tones, tonesTogether_eq, List.flatMap_append, List.flatMap_cons, tones,
      tonesTogether_eq, tonesTogether_eq, List.flatMap_append, List.flatMap_append]

end

/-! ## Samples that are added -/

section

variable (buffer samples samples' : Array Rat) (first stop first' stop' k : Nat)

/-- What is added at a place with samples that start at the place `first` and stop at `stop`. -/
def addend : Rat := if first ≤ k ∧ k < stop then samples[k - first]?.getD 0 else 0

theorem getD_addAt_eq_add : (addAt buffer samples first stop)[k]?.getD 0 =
    buffer[k]?.getD 0 + addend samples first stop k := by
  rw [getD_addAt, addend]
  split
  · cases samples[k - first]? with
    | some x => rfl
    | none => exact (add_zero _).symm
  · exact (add_zero _).symm

/-- Buffers of one size that hold the same everywhere are equal. -/
theorem eq_of_getD {a b : Array Rat} (hsize : a.size = b.size)
    (h : ∀ k : Nat, a[k]?.getD 0 = b[k]?.getD 0) : a = b := by
  refine Array.ext hsize fun k ha hb => ?_
  have hk := h k
  rwa [Array.getElem?_eq_getElem ha, Array.getElem?_eq_getElem hb] at hk

/-- In which order samples are added makes no difference. -/
theorem addAt_right_comm :
    addAt (addAt buffer samples first stop) samples' first' stop' =
      addAt (addAt buffer samples' first' stop') samples first stop := by
  refine eq_of_getD ?_ fun k => ?_
  · simp only [size_addAt]
    split <;> split <;> omega
  · rw [getD_addAt_eq_add, getD_addAt_eq_add, getD_addAt_eq_add, getD_addAt_eq_add]
    exact add_right_comm ..

end

/-! ## The sum of the tones -/

variable [Circular Rat]

theorem getD_mixPlaced (rate : Nat) (buffer : Array Rat) (q : Placed Rat Rat) (k : Nat) :
    (mixPlaced rate buffer q)[k]?.getD 0 = buffer[k]?.getD 0 + q.sampleAt rate k := by
  have hstop : stopIndex (sampleIndex q.start rate) (q.tone.samples rate).size (none : Option Rat)
      rate = sampleIndex q.start rate + (q.tone.samples rate).size := rfl
  rw [mixPlaced, addTone, hstop, getD_addAt_eq_add, Placed.sampleAt, addend]
  congr 1
  by_cases hfirst : k < sampleIndex q.start rate
  · rw [if_pos hfirst, if_neg (by omega)]
  · rw [if_neg hfirst]
    split
    · rfl
    · rw [Array.getElem?_eq_none (by omega)]
      rfl

/-- What is at a place after some tones have been mixed: what was there and what each tone adds. -/
theorem getD_foldl_mixPlaced (rate : Nat) (ts : List (Placed Rat Rat)) (buffer : Array Rat)
    (k : Nat) : (ts.foldl (mixPlaced rate) buffer)[k]?.getD 0 =
      buffer[k]?.getD 0 + (ts.map (Placed.sampleAt rate k)).sum := by
  induction ts generalizing buffer with
  | nil => exact (add_zero _).symm
  | cons q ts ih =>
    rw [List.foldl_cons, ih, getD_mixPlaced, List.map_cons, List.sum_cons, add_assoc]

/-! ## The order in which tones are mixed -/

/-- In which order tones are mixed makes no difference, wherever each of them is cut off. -/
theorem mixCut_right_comm (c d : Option Rat) (rate : Nat) (buffer : Array Rat)
    (q r : Placed Rat Rat) : mixCut d rate (mixCut c rate buffer q) r =
      mixCut c rate (mixCut d rate buffer r) q := addAt_right_comm ..

theorem foldl_mixCut_right_comm (c d : Option Rat) (rate : Nat) (ts us : List (Placed Rat Rat))
    (buffer : Array Rat) :
    us.foldl (mixCut d rate) (ts.foldl (mixCut c rate) buffer) =
      ts.foldl (mixCut c rate) (us.foldl (mixCut d rate) buffer) := by
  induction us generalizing buffer with
  | nil => rfl
  | cons r us ih =>
    rw [List.foldl_cons, List.foldl_cons, ← ih]
    congr 1
    exact (List.foldl_hom (fun buffer => mixCut d rate buffer r)
      fun buffer q => (mixCut_right_comm c d rate buffer q r).symm).symm

/-- In which order two phrases are mixed makes no difference. -/
theorem mixInto_right_comm (p q : Phrase Rat Rat) (start start' : Rat) (c d : Option Rat)
    (rate : Nat) (buffer : Array Rat) :
    q.mixInto start' d rate (p.mixInto start c rate buffer) =
      p.mixInto start c rate (q.mixInto start' d rate buffer) := by
  obtain ⟨ts, hts⟩ := mixInto_eq_foldl p start c rate
  obtain ⟨us, hus⟩ := mixInto_eq_foldl q start' d rate
  rw [hts, hus, hts, hus, foldl_mixCut_right_comm]

/-- A rearrangement of a phrase is mixed as the phrase is. -/
theorem Rearranged.mixInto_eq {p q : Phrase Rat Rat} (h : p.Rearranged q) (start : Rat)
    (rate : Nat) (buffer : Array Rat) :
    p.mixInto start none rate buffer = q.mixInto start none rate buffer := by
  rw [Phrase.mixInto_eq, Phrase.mixInto_eq]
  exact (h.perm_tones start).foldl_eq'
    (fun t _ u _ buffer => mixCut_right_comm none none rate buffer t u) buffer

/-- Wherever it is cut off, too, if no part of it takes a negative time. -/
theorem Rearranged.mixInto_eq_of_forward {p q : Phrase Rat Rat} (h : p.Rearranged q)
    (hp : p.Forward) (start : Rat) (cutOff : Option Rat) (rate : Nat) (buffer : Array Rat) :
    p.mixInto start cutOff rate buffer = q.mixInto start cutOff rate buffer := by
  have hs : Begun start := begun_of_isFinite rfl
  rw [hp.mixInto_eq hs, (h.forward_iff.1 hp).mixInto_eq hs]
  exact ((h.perm_tones start).filter _).foldl_eq'
    (fun t _ u _ buffer => mixCut_right_comm cutOff cutOff rate buffer t u) buffer

mutual

/-- A phrase needs more than a buffer if one of its tones does. -/
theorem exceeds_eq (p : Phrase Rat Rat) (start : Rat) (rate : Nat) :
    p.exceeds start none rate =
      (p.tones start).any fun q => toneExceeds q.tone q.start none rate := by
  rw [exceeds.eq_def, isCut_none]
  cases p with
  | tone t => rw [tones, List.any_cons, List.any_nil, Bool.or_false]; rfl
  | silence d => rw [tones]; rfl
  | sequence ps => rw [tones]; exact sequenceExceeds_eq ps start rate
  | parallel ps => rw [tones]; exact parallelExceeds_eq ps start rate

theorem sequenceExceeds_eq (ps : List (Phrase Rat Rat)) (start : Rat) (rate : Nat) :
    sequenceExceeds ps start none rate =
      (tonesInTurn start ps).any fun q => toneExceeds q.tone q.start none rate := by
  cases ps with
  | nil => rw [sequenceExceeds, tonesInTurn]; rfl
  | cons p ps =>
    rw [sequenceExceeds, tonesInTurn, List.any_append, exceeds_eq p, sequenceExceeds_eq ps]

theorem parallelExceeds_eq (ps : List (Phrase Rat Rat)) (start : Rat) (rate : Nat) :
    parallelExceeds ps start none rate =
      (tonesTogether start ps).any fun q => toneExceeds q.tone q.start none rate := by
  cases ps with
  | nil => rw [parallelExceeds, tonesTogether]; rfl
  | cons p ps =>
    rw [parallelExceeds, tonesTogether, List.any_append, exceeds_eq p, parallelExceeds_eq ps]

end

theorem Rearranged.mixInto?_eq {p q : Phrase Rat Rat} (h : p.Rearranged q) (start : Rat)
    (rate : Nat) (buffer : Array Rat) :
    p.mixInto? start none rate buffer = q.mixInto? start none rate buffer := by
  rw [mixInto?, mixInto?, exceeds_eq, exceeds_eq, (h.perm_tones start).any_eq, h.mixInto_eq]

end Phrase

/-! ## Timelines -/

namespace Timeline

variable [Circular Rat]

/-- In which order the entries stand makes no difference to what is heard. -/
theorem render_of_perm {t t' : Timeline Rat Rat} (h : t.entries.Perm t'.entries) (rate : Nat) :
    t.render rate = t'.render rate :=
  h.foldl_eq' (fun e _ e' _ buffer => Phrase.mixInto_right_comm e.phrase e'.phrase e.start e'.start
    e.stoppedAt e'.stoppedAt rate buffer) #[]

theorem render?_of_perm {t t' : Timeline Rat Rat} (h : t.entries.Perm t'.entries) (rate : Nat) :
    t.render? rate = t'.render? rate := by
  rw [render?, render?, render_of_perm h, h.any_eq]

omit [Circular Rat] in
/-- A run that plays phrases adds an entry for each of them. -/
theorem entries_run_play {σ : Type} (t : Timeline Rat σ) (plays : List (Phrase Rat σ × Rat)) :
    (t.run (plays.map fun q => .play q.1 q.2)).entries =
      t.entries ++ plays.map fun q => ⟨q.1, q.2, q.1.duration, none⟩ := by
  induction plays generalizing t with
  | nil => exact (List.append_nil _).symm
  | cons q plays ih =>
    rw [List.map_cons, run, List.foldl_cons, ← run, ih, move, play_eq, if_pos ⟨rfl, rfl⟩,
      List.map_cons]
    exact List.append_assoc ..

end Timeline

/-! ## Superposition -/

/-- Without a cut-off a phrase adds at every place the samples that its tones have there. A tone
starts when all has passed that stands before it in the sequences around it, and what starts
together takes as long as the longest of it. So nothing is changed by a rearrangement of a phrase,
nor by the order in which phrases are scheduled. -/
theorem mixing_superposes [Circular Rat] :
    (∀ (p : Phrase Rat Rat) (start : Rat) (rate : Nat) (buffer : Array Rat) (k : Nat),
      (p.mixInto start none rate buffer)[k]?.getD 0 =
        buffer[k]?.getD 0 + ((p.tones start).map (Placed.sampleAt rate k)).sum) ∧
    (∀ (ps : List (Phrase Rat Rat)) (start : Rat),
      (Phrase.sequence ps).tones start =
        (ps.mapIdx fun i p => p.tones (start + ((ps.take i).map Phrase.duration).sum)).flatten ∧
      (Phrase.parallel ps).tones start = ps.flatMap (Phrase.tones start) ∧
      (Phrase.sequence ps).duration = (ps.map Phrase.duration).sum ∧
      (ps ≠ [] → (Phrase.parallel ps).Forward → ∃ p ∈ ps,
        (Phrase.parallel ps).duration = p.duration ∧ ∀ q ∈ ps, q.duration ≤ p.duration)) ∧
    (∀ p q : Phrase Rat Rat, p.Rearranged q → ∀ (start : Rat) (rate : Nat) (buffer : Array Rat),
      p.mixInto start none rate buffer = q.mixInto start none rate buffer ∧
      p.mixInto? start none rate buffer = q.mixInto? start none rate buffer ∧
      (p.Forward → ∀ cutOff : Option Rat,
        p.mixInto start cutOff rate buffer = q.mixInto start cutOff rate buffer)) ∧
    (∀ t t' : Timeline Rat Rat, t.entries.Perm t'.entries → ∀ rate,
      t.render rate = t'.render rate ∧ t.render? rate = t'.render? rate) ∧
    ∀ (t : Timeline Rat Rat) (plays plays' : List (Phrase Rat Rat × Rat)), plays.Perm plays' →
      ∀ rate, (t.run (plays.map fun q => .play q.1 q.2)).render rate =
        (t.run (plays'.map fun q => .play q.1 q.2)).render rate := by
  refine ⟨fun p start rate buffer k => ?_, fun ps start => ⟨?_, ?_, ?_, fun hne hforward => ?_⟩,
    fun p q h start rate buffer => ⟨?_, ?_, fun hp cutOff => ?_⟩, fun t t' h rate => ⟨?_, ?_⟩,
    fun t plays plays' h rate => ?_⟩
  · rw [Phrase.mixInto_eq, Phrase.getD_foldl_mixPlaced]
  · rw [Phrase.tones, Phrase.tonesInTurn_eq]
  · rw [Phrase.tones, Phrase.tonesTogether_eq]
  · exact Phrase.duration_sequence ps
  · exact Phrase.exists_duration_parallel hne fun p hp =>
      (Phrase.forward_parallel_iff.1 hforward p hp).duration_nonneg
  · exact h.mixInto_eq start rate buffer
  · exact h.mixInto?_eq start rate buffer
  · exact h.mixInto_eq_of_forward hp start cutOff rate buffer
  · exact Timeline.render_of_perm h rate
  · exact Timeline.render?_of_perm h rate
  · refine Timeline.render_of_perm ?_ rate
    rw [Timeline.entries_run_play, Timeline.entries_run_play]
    exact (h.map _).append_left t.entries

section

open Phrase Timeline
open scoped Octaves

/-- A tone, and two more in a sequence of their own that comes late. -/
def Phrase.nested : Phrase Rat Rat :=
  .parallel [bell, .sequence [.silence (1 / 4), .sequence [bell, bell]]]

/-- The same in one sequence, and with the tone behind it. -/
def Phrase.unnested : Phrase Rat Rat :=
  .parallel [.sequence [.silence (1 / 4), bell, bell], bell]

theorem rearranged_nested : nested.Rearranged unnested :=
  .trans (.inParallel [_] [] (.flattenSequence [_] [_, _] [])) (.permute (.swap _ _ _))

theorem forward_nested : nested.Forward := by
  have hsilence : (silence (1 / 4) : Phrase Rat Rat).Forward := .silence (by decide +kernel)
  simpa [nested, forward_bell] using hsilence

theorem mixing_superposes_nested :
    nested.mixInto (1 / 4) none 4 #[0, 1] = #[0, 2, 2, 3 / 2, 3 / 2, 1, 1 / 2] ∧
      unnested.mixInto (1 / 4) none 4 #[0, 1] = #[0, 2, 2, 3 / 2, 3 / 2, 1, 1 / 2] ∧
      nested.mixInto 0 (some 1) 4 #[] = unnested.mixInto 0 (some 1) 4 #[] ∧
      (∃ p ∈ [bell, .sequence [.silence (1 / 4), .sequence [bell, bell]]],
        nested.duration = p.duration ∧ bell.duration ≤ p.duration) ∧
      (let e : Entry Rat Rat := ⟨bell, 0, 1 / 2, some (1 / 4)⟩
       let e' : Entry Rat Rat := ⟨nested, 1 / 4, 5 / 4, none⟩
       Timeline.render ⟨[e, e'], []⟩ 4 = Timeline.render ⟨[e', e], []⟩ 4) ∧
      let t : Timeline Rat Rat := .empty
      (t.run [.play nested 0, .play bell (1 / 2)]).render 4 =
        (t.run [.play bell (1 / 2), .play nested 0]).render 4 := by
  obtain ⟨-, hplaced, hrearranged, hentries, hplays⟩ := mixing_superposes
  have hnested := hrearranged nested unnested rearranged_nested
  have hvalue : nested.mixInto (1 / 4) none 4 #[0, 1] = #[0, 2, 2, 3 / 2, 3 / 2, 1, 1 / 2] := by
    decide +kernel
  obtain ⟨p, hp, hduration, hle⟩ := (hplaced _ 0).2.2.2 (List.cons_ne_nil _ _) forward_nested
  exact ⟨hvalue, (hnested (1 / 4) 4 #[0, 1]).1.symm.trans hvalue,
    (hnested 0 4 #[]).2.2 forward_nested (some 1),
    ⟨p, hp, hduration, hle _ List.mem_cons_self⟩, (hentries _ _ (.swap _ _ _) 4).1,
    hplays .empty [(nested, 0), (bell, 1 / 2)] [(bell, 1 / 2), (nested, 0)] (.swap _ _ _) 4⟩

end

end MusicMacro
