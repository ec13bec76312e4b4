import MusicMacro.Proofs.Order.Products
import MusicMacro.Proofs.Timeline.Silence

/-!
# Mixing up to a cut-off

There are two ways in which a cut-off leaves something out: a phrase that starts at or after it is
passed over with all that is in it, and a tone that crosses it loses its last samples. Together they
do what cutting the whole does. For what is passed over is late: in a phrase of which no part takes
a negative time nothing starts before the phrase, and what starts no earlier than the cut-off has
its first sample no earlier either, however times are rounded to samples.

Behind the end of a buffer there are zeros, with which it is extended when something is mixed there.

* `Phrase.Forward` — no part of a phrase takes a negative time.
* `Phrase.Forward.mixInto_eq` — such a phrase is mixed by mixing those of its tones that are not
  passed over.
* `Phrase.Forward.getD_mixInto` — before the cut-off it is mixed as it is without one.
* `Phrase.getElem?_mixInto_of_stop` — from the cut-off on nothing is mixed.
* `Phrase.exceeds_none` — with a cut-off no phrase needs more of a buffer.
* `Timeline.mixing_truncated` — mixing up to a cut-off is a truncation, and no stop in a run changes
  what comes before it.
-/

namespace MusicMacro

open Scalar

variable {τ σ : Type} [Scalar τ]

namespace Phrase

/-! ## Phrases that go forward -/

/-- No tone and no silence of the phrase takes a negative time. -/
inductive Forward : Phrase τ σ → Prop
  | tone {t : Tone τ σ} (h : 0 ≤ t.duration) : Forward (.tone t)
  | silence {d : τ} (h : 0 ≤ d) : Forward (.silence d)
  | sequence {ps : List (Phrase τ σ)} (h : ∀ p ∈ ps, Forward p) : Forward (.sequence ps)
  | parallel {ps : List (Phrase τ σ)} (h : ∀ p ∈ ps, Forward p) : Forward (.parallel ps)

@[simp]
theorem forward_sequence_iff {ps : List (Phrase τ σ)} :
    (sequence ps).Forward ↔ ∀ p ∈ ps, p.Forward :=
  ⟨fun | .sequence h => h, .sequence⟩

@[simp]
theorem forward_parallel_iff {ps : List (Phrase τ σ)} :
    (parallel ps).Forward ↔ ∀ p ∈ ps, p.Forward :=
  ⟨fun | .parallel h => h, .parallel⟩

theorem larger_nonneg {a b : τ} (ha : 0 ≤ a) (hb : 0 ≤ b) : 0 ≤ larger a b := by
  unfold larger
  split
  · exact ha
  · split
    · exact hb
    · exact ha

theorem longest_nonneg {ps : List (Phrase τ σ)} (h : ∀ p ∈ ps, 0 ≤ p.duration) {known : τ}
    (hk : 0 ≤ known) : 0 ≤ longest known ps := by
  induction ps generalizing known with
  | nil => rwa [longest]
  | cons p ps ih =>
    obtain ⟨hfirst, hrest⟩ := List.forall_mem_cons.1 h
    rw [longest]
    exact ih hrest (larger_nonneg hk hfirst)

section

variable [Ordered τ] [Extended τ]

theorem total_nonneg {ps : List (Phrase τ σ)} (h : ∀ p ∈ ps, 0 ≤ p.duration) {passed : τ}
    (hp : 0 ≤ passed) : 0 ≤ total passed ps := by
  induction ps generalizing passed with
  | nil => rwa [total]
  | cons p ps ih =>
    obtain ⟨hfirst, hrest⟩ := List.forall_mem_cons.1 h
    rw [total]
    exact ih hrest (add_nonneg hp hfirst)

/-- A phrase that goes forward takes no negative time. -/
theorem Forward.duration_nonneg {p : Phrase τ σ} (h : p.Forward) : 0 ≤ p.duration := by
  induction h with
  | tone h => rwa [duration]
  | silence h => rwa [duration]
  | sequence _ ih =>
    rw [duration]
    exact total_nonneg ih Extended.zero_le_neg_zero
  | parallel _ ih =>
    rw [duration]
    exact longest_nonneg ih zero_le_zero

/-- Tones in turn start no earlier than the first of them may, if those of every phrase do so. -/
theorem le_start_tonesInTurn {ps : List (Phrase τ σ)} (hps : ∀ p ∈ ps, p.Forward)
    (h : ∀ p ∈ ps, ∀ {start : τ}, Begun start → ∀ q ∈ p.tones start, start ≤ q.start) {start : τ}
    (hs : Begun start) : ∀ q ∈ tonesInTurn start ps, start ≤ q.start := by
  induction ps generalizing start with
  | nil =>
    rw [tonesInTurn]
    exact nofun
  | cons p ps ih =>
    obtain ⟨hforward, hforwards⟩ := List.forall_mem_cons.1 hps
    obtain ⟨hfirst, hrest⟩ := List.forall_mem_cons.1 h
    have hle : start ≤ start + p.duration := hs.le_add hforward.duration_nonneg
    rw [tonesInTurn]
    intro q hq
    rcases List.mem_append.1 hq with hq | hq
    · exact hfirst hs q hq
    · exact Ordered.trans hle (ih hforwards hrest (hs.of_le hle) q hq)

omit [Ordered τ] [Extended τ] in
theorem tonesTogether_eq (start : τ) (ps : List (Phrase τ σ)) :
    tonesTogether start ps = ps.flatMap (tones start) := by
  induction ps with
  | nil => rw [tonesTogether]; rfl
  | cons p ps ih => rw [tonesTogether, ih, List.flatMap_cons]

/-- No tone of a phrase that goes forward starts before the phrase. -/
theorem Forward.le_start {p : Phrase τ σ} (h : p.Forward) {start : τ} (hs : Begun start) :
    ∀ q ∈ p.tones start, start ≤ q.start := by
  induction h generalizing start with
  | tone _ =>
    intro q hq
    rw [tones, List.mem_singleton] at hq
    rw [hq]
    exact le_self hs.isNumber
  | silence _ =>
    rw [tones]
    exact nofun
  | sequence h ih =>
    rw [tones]
    exact le_start_tonesInTurn h ih hs
  | parallel _ ih =>
    intro q hq
    rw [tones, tonesTogether_eq, List.mem_flatMap] at hq
    obtain ⟨p, hp, hq⟩ := hq
    exact ih p hp hs q hq

end

/-! ## Cut-offs -/

section

variable [Ordered τ] [Extended τ] {cutOff : Option τ} {a b : τ}

/-- What does not come before something that is cut is cut as well. -/
theorem isCut_of_le (h : isCut a cutOff) (hle : a ≤ b) : isCut b cutOff := by
  cases cutOff with
  | some c => exact decide_eq_true (Ordered.trans (of_decide_eq_true h) hle)
  | none =>
    obtain ⟨hfinite, hzero⟩ := Bool.and_eq_true_iff.1 h
    have hinf : isFinite a = false := by simpa using hfinite
    have hzero : (0 : τ) ≤ a := of_decide_eq_true hzero
    refine Bool.and_eq_true_iff.2 ⟨?_, decide_eq_true (Ordered.trans hzero hle)⟩
    by_contra hb
    exact Extended.not_infinite_le (by simpa using hb) hinf hzero hle

omit [Ordered τ] in
/-- What is cut without a cut-off is cut with every one. -/
theorem isCut_of_isCut_none (h : isCut a none) (hc : ∀ c ∈ cutOff, isNumber c) :
    isCut a cutOff := by
  cases cutOff with
  | none => exact h
  | some c =>
    obtain ⟨hfinite, hzero⟩ := Bool.and_eq_true_iff.1 h
    exact decide_eq_true (Extended.le_infinite (hc c rfl) (by simpa using hfinite)
      (of_decide_eq_true hzero))

end

/-! ## The tones that are mixed -/

section

variable [Scalar σ] [Circular σ] [Narrow τ σ]

/-- The tones that are not cut. -/
def uncut (cutOff : Option τ) (ts : List (Placed τ σ)) : List (Placed τ σ) :=
  ts.filter fun q => !isCut q.start cutOff

variable [Ordered τ] [Extended τ] {cutOff : Option τ} {rate : Nat}

/-- Phrases in turn are mixed by mixing their tones, if every one of them is. -/
theorem mixSequence_eq_uncut {ps : List (Phrase τ σ)} (hps : ∀ p ∈ ps, p.Forward)
    (h : ∀ p ∈ ps, ∀ {start : τ}, Begun start → ∀ buffer, p.mixInto start cutOff rate buffer =
      (uncut cutOff (p.tones start)).foldl (mixCut cutOff rate) buffer) {start : τ}
    (hs : Begun start) (buffer : Array σ) : mixSequence ps start cutOff rate buffer =
      (uncut cutOff (tonesInTurn start ps)).foldl (mixCut cutOff rate) buffer := by
  induction ps generalizing start buffer with
  | nil =>
    rw [mixSequence, tonesInTurn]
    rfl
  | cons p ps ih =>
    obtain ⟨hforward, hforwards⟩ := List.forall_mem_cons.1 hps
    obtain ⟨hfirst, hrest⟩ := List.forall_mem_cons.1 h
    have hnext : Begun (start + p.duration) := hs.of_le (hs.le_add hforward.duration_nonneg)
    rw [mixSequence, tonesInTurn, uncut, List.filter_append, List.foldl_append, hfirst hs]
    exact ih hforwards hrest hnext _

omit [Ordered τ] [Extended τ] in
/-- Phrases that start together are mixed by mixing their tones, if every one of them is. -/
theorem mixParallel_eq_uncut {ps : List (Phrase τ σ)} {start : τ}
    (h : ∀ p ∈ ps, ∀ buffer, p.mixInto start cutOff rate buffer =
      (uncut cutOff (p.tones start)).foldl (mixCut cutOff rate) buffer)
    (buffer : Array σ) : mixParallel ps start cutOff rate buffer =
      (uncut cutOff (tonesTogether start ps)).foldl (mixCut cutOff rate) buffer := by
  induction ps generalizing buffer with
  | nil =>
    rw [mixParallel, tonesTogether]
    rfl
  | cons p ps ih =>
    obtain ⟨hfirst, hrest⟩ := List.forall_mem_cons.1 h
    rw [mixParallel, tonesTogether, uncut, List.filter_append, List.foldl_append, hfirst]
    exact ih hrest _

/-- Of a phrase that goes forward and is cut at its start all tones are cut. -/
theorem Forward.mixInto_eq_of_uncut {p : Phrase τ σ} (h : p.Forward) {start : τ} (hs : Begun start)
    (buffer : Array σ) (hmix : ¬isCut start cutOff → p.mixInto start cutOff rate buffer =
      (uncut cutOff (p.tones start)).foldl (mixCut cutOff rate) buffer) :
    p.mixInto start cutOff rate buffer =
      (uncut cutOff (p.tones start)).foldl (mixCut cutOff rate) buffer := by
  by_cases hcut : isCut start cutOff
  · have hnone : uncut cutOff (p.tones start) = [] :=
      List.filter_eq_nil_iff.2 fun q hq => by simpa using isCut_of_le hcut (h.le_start hs q hq)
    rw [mixInto_of_isCut hcut, hnone, List.foldl_nil]
  · exact hmix hcut

/-- A phrase that goes forward is mixed by mixing those of its tones that are not cut. -/
theorem Forward.mixInto_eq {p : Phrase τ σ} (h : p.Forward) {start : τ} (hs : Begun start)
    (buffer : Array σ) : p.mixInto start cutOff rate buffer =
      (uncut cutOff (p.tones start)).foldl (mixCut cutOff rate) buffer := by
  induction h generalizing start buffer with
  | @tone t h =>
    refine (Forward.tone h).mixInto_eq_of_uncut hs buffer fun hcut => ?_
    rw [mixInto, if_neg hcut, tones, uncut, List.filter_cons_of_pos (by simpa using hcut)]
    rfl
  | silence h =>
    refine (Forward.silence h).mixInto_eq_of_uncut hs buffer fun hcut => ?_
    rw [mixInto, if_neg hcut, tones]
    rfl
  | sequence h ih =>
    refine (Forward.sequence h).mixInto_eq_of_uncut hs buffer fun hcut => ?_
    rw [mixInto, if_neg hcut, tones]
    exact mixSequence_eq_uncut h ih hs buffer
  | parallel h ih =>
    refine (Forward.parallel h).mixInto_eq_of_uncut hs buffer fun hcut => ?_
    rw [mixInto, if_neg hcut, tones]
    exact mixParallel_eq_uncut (fun p hp => ih p hp hs) buffer

end

/-! ## What is at a place -/

section

variable [Scalar σ]

/-- What is at a place of a buffer to which samples are added: behind its end there was nothing. -/
theorem getD_addAt (buffer samples : Array σ) (first stop j : Nat) :
    (addAt buffer samples first stop)[j]?.getD 0 =
      if first ≤ j ∧ j < stop then
        (samples[j - first]?).elim (buffer[j]?.getD 0) (buffer[j]?.getD 0 + ·)
      else buffer[j]?.getD 0 := by
  rw [addAt]
  split
  · rw [if_neg (by omega)]
  · rw [getElem?_addFrom le_rfl, getElem?_extended]
    by_cases hj : first ≤ j ∧ j < stop
    · rw [if_pos hj, if_pos hj, if_pos hj.2, Option.or_some, Option.map_some, Option.getD_some]
    · rw [if_neg hj, if_neg hj]
      cases buffer[j]? with
      | some x => rfl
      | none => split <;> rfl

variable [Circular σ] [Narrow τ σ] {rate j : Nat} {buffer buffer' : Array σ}

/-- What is at a place after a tone has been mixed depends on nothing but what was there. -/
theorem getD_mixCut_congr (cutOff : Option τ) (q : Placed τ σ)
    (h : buffer[j]?.getD 0 = buffer'[j]?.getD 0) :
    (mixCut cutOff rate buffer q)[j]?.getD 0 = (mixCut cutOff rate buffer' q)[j]?.getD 0 := by
  rw [mixCut, addTone, getD_addAt, mixCut, addTone, getD_addAt, h]

/-- Before a cut-off a tone is mixed as it is without one. -/
theorem getD_mixCut_of_lt {c : τ} (q : Placed τ σ) (hj : j < sampleIndex c rate)
    (h : buffer[j]?.getD 0 = buffer'[j]?.getD 0) :
    (mixCut (some c) rate buffer q)[j]?.getD 0 = (mixCut none rate buffer' q)[j]?.getD 0 := by
  rw [mixCut, addTone, getD_addAt, mixCut, addTone, getD_addAt, h]
  have hstop (size : Nat) : j < stopIndex (sampleIndex q.start rate) size (some c) rate ↔
      j < stopIndex (sampleIndex q.start rate) size (none : Option τ) rate := by
    show j < min _ _ ↔ j < cap τ _
    rw [Nat.lt_min]
    exact and_iff_left hj
  simp only [hstop]

/-- A tone changes nothing before its start. -/
theorem getD_mixCut_of_lt_start (cutOff : Option τ) (q : Placed τ σ) (buffer : Array σ)
    (hj : j < sampleIndex q.start rate) :
    (mixCut cutOff rate buffer q)[j]?.getD 0 = buffer[j]?.getD 0 := by
  rw [mixCut, addTone, getD_addAt, if_neg (by omega)]

theorem getD_foldl_mixCut_congr (cutOff : Option τ) (ts : List (Placed τ σ))
    (h : buffer[j]?.getD 0 = buffer'[j]?.getD 0) :
    (ts.foldl (mixCut cutOff rate) buffer)[j]?.getD 0 =
      (ts.foldl (mixCut cutOff rate) buffer')[j]?.getD 0 := by
  induction ts generalizing buffer buffer' with
  | nil => exact h
  | cons q ts ih => exact ih (getD_mixCut_congr cutOff q h)

theorem getD_mixInto_congr (p : Phrase τ σ) (start : τ) (cutOff : Option τ)
    (h : buffer[j]?.getD 0 = buffer'[j]?.getD 0) :
    (p.mixInto start cutOff rate buffer)[j]?.getD 0 =
      (p.mixInto start cutOff rate buffer')[j]?.getD 0 := by
  obtain ⟨ts, hts⟩ := mixInto_eq_foldl p start cutOff rate
  rw [hts, hts]
  exact getD_foldl_mixCut_congr cutOff ts h

variable [Extended τ] [Sampled τ]

/-- Before a cut-off tones are mixed as they are without one. Those that are cut start behind it. -/
theorem getD_foldl_uncut {c : τ} (hc : isNumber c) (ts : List (Placed τ σ))
    (hj : j < sampleIndex c rate) (h : buffer[j]?.getD 0 = buffer'[j]?.getD 0) :
    ((uncut (some c) ts).foldl (mixCut (some c) rate) buffer)[j]?.getD 0 =
      ((uncut none ts).foldl (mixCut none rate) buffer')[j]?.getD 0 := by
  induction ts generalizing buffer buffer' with
  | nil => exact h
  | cons q ts ih =>
    -- a tone is passed over on both sides, or on one of them, or on none
    by_cases hnone : isCut q.start (none : Option τ)
    · have hsome : isCut q.start (some c) := isCut_of_isCut_none hnone (by simpa using hc)
      rw [uncut, uncut, List.filter_cons_of_neg (by simpa using hsome),
        List.filter_cons_of_neg (by simpa using hnone)]
      exact ih h
    · rw [uncut, uncut, List.filter_cons_of_pos (p := fun q : Placed τ σ => !isCut q.start none)
        (by simpa using hnone)]
      by_cases hsome : isCut q.start (some c)
      · have hstart : j < sampleIndex q.start rate :=
          hj.trans_le (Sampled.sampleIndex_le rate (of_decide_eq_true hsome))
        rw [List.filter_cons_of_neg (by simpa using hsome)]
        exact ih (h.trans (getD_mixCut_of_lt_start none q buffer' hstart).symm)
      · rw [List.filter_cons_of_pos (by simpa using hsome)]
        exact ih (getD_mixCut_of_lt q hj h)

variable [Ordered τ]

/-- Before a cut-off a phrase is mixed as it is without one. -/
theorem Forward.getD_mixInto {p : Phrase τ σ} (hp : p.Forward) {start c : τ} (hs : Begun start)
    (hc : isNumber c) (hj : j < sampleIndex c rate)
    (h : buffer[j]?.getD 0 = buffer'[j]?.getD 0) :
    (p.mixInto start (some c) rate buffer)[j]?.getD 0 =
      (p.mixInto start none rate buffer')[j]?.getD 0 := by
  rw [hp.mixInto_eq hs, hp.mixInto_eq hs]
  exact getD_foldl_uncut hc _ hj h

/-- Before two cut-offs a phrase is mixed in the same way. -/
theorem Forward.getD_mixInto_of_lt {p : Phrase τ σ} (hp : p.Forward) {start c d : τ}
    (hs : Begun start) (hc : isNumber c) (hd : isNumber d) (hjc : j < sampleIndex c rate)
    (hjd : j < sampleIndex d rate) (h : buffer[j]?.getD 0 = buffer'[j]?.getD 0) :
    (p.mixInto start (some c) rate buffer)[j]?.getD 0 =
      (p.mixInto start (some d) rate buffer')[j]?.getD 0 :=
  (hp.getD_mixInto hs hc hjc h).trans (hp.getD_mixInto hs hd hjd rfl).symm

end

/-! ## From the cut-off on -/

/-- The place from which on nothing is mixed, if there is one: where the cut-off is, or the last
that can be counted. At a rate of zero infinity is at the first place as everything is. -/
def cutIndex? (rate : Nat) : Option τ → Option Nat
  | some c => some (sampleIndex c rate)
  | none => if rate = 0 then some 0 else lastCount τ

section

theorem cap_le (n : Nat) : cap τ n ≤ n := by
  unfold cap
  split
  · exact Nat.min_le_left ..
  · exact le_rfl

variable [Scalar σ] [Circular σ] [Narrow τ σ] {cutOff : Option τ} {rate stop j : Nat}

/-- A cut-off makes no tone stop later. -/
theorem stopIndex_le_none (first size : Nat) (cutOff : Option τ) (rate : Nat) :
    stopIndex first size cutOff rate ≤ stopIndex first size (none : Option τ) rate := by
  cases cutOff with
  | some c => exact Nat.min_le_left ..
  | none => exact le_rfl

variable [Standing τ]

theorem samples_rate_zero (t : Tone τ σ) : t.samples 0 = #[] := by
  rw [Tone.samples, Tone.heldSamples, Standing.sampleIndex_zero, if_pos rfl]

/-- Every tone has stopped where nothing is mixed any more. -/
theorem stopIndex_le (hstop : stop ∈ cutIndex? rate cutOff) (q : Placed τ σ) :
    stopIndex (sampleIndex q.start rate) (q.tone.samples rate).size cutOff rate ≤ stop := by
  cases cutOff with
  | some c =>
    rw [← Option.some.inj hstop]
    exact Nat.min_le_right ..
  | none =>
    rw [cutIndex?] at hstop
    split at hstop
    next hrate =>
      rw [hrate, samples_rate_zero, Standing.sampleIndex_zero]
      exact (cap_le 0).trans (Nat.zero_le _)
    next =>
      show cap τ _ ≤ stop
      rw [cap, hstop]
      exact Nat.min_le_right ..

theorem getElem?_foldl_of_stop (hstop : stop ∈ cutIndex? rate cutOff) (hj : stop ≤ j)
    (ts : List (Placed τ σ)) (buffer : Array σ) :
    (ts.foldl (mixCut cutOff rate) buffer)[j]? = buffer[j]? := by
  induction ts generalizing buffer with
  | nil => rfl
  | cons q ts ih =>
    rw [List.foldl_cons, ih]
    exact getElem?_addAt_of_le ((stopIndex_le hstop q).trans hj)

/-- A phrase adds nothing where nothing is mixed any more. -/
theorem getElem?_mixInto_of_stop (hstop : stop ∈ cutIndex? rate cutOff) (hj : stop ≤ j)
    (p : Phrase τ σ) (start : τ) (buffer : Array σ) :
    (p.mixInto start cutOff rate buffer)[j]? = buffer[j]? := by
  obtain ⟨ts, hts⟩ := mixInto_eq_foldl p start cutOff rate
  rw [hts, getElem?_foldl_of_stop hstop hj]

/-- It extends no buffer beyond that place. -/
theorem size_mixInto_le (hstop : stop ∈ cutIndex? rate cutOff) (p : Phrase τ σ) (start : τ)
    (buffer : Array σ) : (p.mixInto start cutOff rate buffer).size ≤ max buffer.size stop := by
  rw [← Array.getElem?_eq_none_iff, getElem?_mixInto_of_stop hstop (Nat.le_max_right ..),
    Array.getElem?_eq_none_iff]
  exact Nat.le_max_left ..

end

/-- A buffer holds what is in one buffer before a place and what is in another one from there on. Up
to the place both of them may have to be extended. -/
structure Truncated [Zero σ] (stop? : Option Nat) (buffer whole part : Array σ) : Prop where
  before : ∀ j, (∀ stop ∈ stop?, j < stop) → part[j]?.getD 0 = whole[j]?.getD 0
  after : ∀ stop ∈ stop?, ∀ j, stop ≤ j → part[j]? = buffer[j]?
  size_le : ∀ stop ∈ stop?, part.size ≤ max buffer.size stop

/-! ## Capacity -/

section

variable [Scalar σ] [Circular σ] [Narrow τ σ] {cutOff : Option τ} {rate : Nat}

/-- What a tone needs of a buffer with a cut-off it needs without one. -/
theorem toneExceeds_none {t : Tone τ σ} {start : τ} (h : toneExceeds t start cutOff rate) :
    toneExceeds t start none rate := by
  have hle := stopIndex_le_none (sampleIndex start rate) (t.samples rate).size cutOff rate
  unfold toneExceeds at h ⊢
  by_cases hlong : t.isTooLong rate
  · rw [if_pos hlong]
  · rw [if_neg hlong] at h ⊢
    dsimp only at h ⊢
    split
    next hfits =>
      rw [if_pos hfits] at h
      exact h
    next hfits =>
      rw [if_neg hfits, Bool.and_eq_true_iff, decide_eq_true_iff, decide_eq_true_iff] at h
      rw [Bool.and_eq_true_iff, decide_eq_true_iff, decide_eq_true_iff]
      exact ⟨h.1.trans_le hle, h.2.trans_le hle⟩

mutual

/-- What a phrase needs of a buffer with a cut-off it needs without one. -/
theorem exceeds_none [Extended τ] (hc : ∀ c ∈ cutOff, isNumber c) (p : Phrase τ σ) (start : τ)
    (h : p.exceeds start cutOff rate) : p.exceeds start none rate := by
  rw [exceeds.eq_def] at h ⊢
  by_cases hcut : isCut start cutOff
  · rw [if_pos hcut] at h
    cases h
  · rw [if_neg hcut] at h
    rw [if_neg fun hnone => hcut (isCut_of_isCut_none hnone hc)]
    cases p with
    | tone t => exact toneExceeds_none h
    | silence d => exact h
    | sequence ps => exact sequenceExceeds_none hc ps start h
    | parallel ps => exact parallelExceeds_none hc ps start h

theorem sequenceExceeds_none [Extended τ] (hc : ∀ c ∈ cutOff, isNumber c) (ps : List (Phrase τ σ))
    (start : τ) (h : sequenceExceeds ps start cutOff rate) :
    sequenceExceeds ps start none rate := by
  cases ps with
  | nil => exact h
  | cons p ps =>
    rw [sequenceExceeds, Bool.or_eq_true] at h ⊢
    exact h.imp (exceeds_none hc p start) (sequenceExceeds_none hc ps _)

theorem parallelExceeds_none [Extended τ] (hc : ∀ c ∈ cutOff, isNumber c) (ps : List (Phrase τ σ))
    (start : τ) (h : parallelExceeds ps start cutOff rate) :
    parallelExceeds ps start none rate := by
  cases ps with
  | nil => exact h
  | cons p ps =>
    rw [parallelExceeds, Bool.or_eq_true] at h ⊢
    exact h.imp (exceeds_none hc p start) (parallelExceeds_none hc ps start)

end

end

end Phrase

/-! ## Stops -/

namespace Timeline

/-- The phrase that a move schedules, if any, goes forward. -/
def Move.Forward : Move τ σ → Prop
  | .play p _ | .splice _ p => p.Forward
  | .stop .. => True

/-- All phrases that have been scheduled go forward. -/
def Forward (t : Timeline τ σ) : Prop := ∀ e ∈ t.entries, e.phrase.Forward

theorem Forward.move {t : Timeline τ σ} (ht : t.Forward) {m : Move τ σ} (hm : m.Forward) :
    (t.move m).Forward := by
  rcases t.move_cases m with ⟨heq, -⟩ | ⟨p, start, parts, first, hschedules, -, -, heq⟩ |
    ⟨i, time, h, -, -, -, heq⟩ <;> rw [heq]
  · exact ht
  · intro e he
    rcases List.mem_append.1 he with he | he
    · exact ht e he
    · rw [List.mem_singleton.1 he]
      cases hschedules with
      | play p start => exact hm
      | splice hi p => exact hm
  · intro e he
    obtain ⟨k, hk, rfl⟩ := List.mem_mapIdx.1 he
    have hmem := ht _ (List.getElem_mem hk)
    split
    · exact hmem
    · exact hmem

theorem Forward.run {t : Timeline τ σ} (ht : t.Forward) {moves : List (Move τ σ)}
    (hm : ∀ m ∈ moves, m.Forward) : (t.run moves).Forward := by
  induction moves generalizing t with
  | nil => exact ht
  | cons m moves ih =>
    obtain ⟨hfirst, hrest⟩ := List.forall_mem_cons.1 hm
    exact ih (ht.move hfirst) hrest

end Timeline

section

variable [Scalar σ] [Circular σ] [Narrow τ σ] [Ordered τ] [Extended τ] [Sampled τ]

/-- An entry that is cut off is mixed before the cut-off as it was. -/
theorem Entry.getD_mix_cut {e : Entry τ σ} {times : List τ} (he : e.ToldBy times)
    (hp : e.phrase.Forward) {time : τ} (htime : isNumber time) {rate j : Nat}
    (hj : j < sampleIndex time rate) {buffer buffer' : Array σ}
    (h : buffer[j]?.getD 0 = buffer'[j]?.getD 0) :
    ((e.cut time).mix rate buffer)[j]?.getD 0 = (e.mix rate buffer')[j]?.getD 0 := by
  have hs := begun_of_isFinite he.start
  rcases he.stopped with ⟨hnone, -⟩ | ⟨c, hc, hearliest⟩
  · rw [mix, mix, cut, hnone]
    exact hp.getD_mixInto hs htime hj h
  · rw [mix, mix, cut, hc]
    show (e.phrase.mixInto e.start (some (smaller c time)) rate buffer)[j]?.getD 0 = _
    rw [smaller_eq_ite htime]
    split
    · exact Phrase.getD_mixInto_congr _ _ _ h
    next hlt =>
      have hle := Sampled.sampleIndex_le rate (le_of_not_lt hearliest.isNumber htime hlt)
      exact hp.getD_mixInto_of_lt hs htime hearliest.isNumber hj (hj.trans_le hle) h

namespace Timeline

/-- A stop changes nothing before the time of the stop. -/
theorem Recorded.getD_render_stop {t : Timeline τ σ} {log : List (Stop τ)}
    {made : List (Handle τ)} (ht : Recorded t log made) (hforward : t.Forward) (i : Nat) {time : τ}
    (htime : isNumber time) {rate j : Nat} (hj : j < sampleIndex time rate) :
    ((t.stop i time).render rate)[j]?.getD 0 = (t.render rate)[j]?.getD 0 := by
  cases hi : t.handles[i]? with
  | none => rw [stop, hi]
  | some h =>
    rw [stop_eq hi]
    split
    · rfl
    · refine List.rel_foldl (P := fun buffer buffer' => buffer[j]?.getD 0 = buffer'[j]?.getD 0)
        (R := fun e e' => ∃ k, t.entries[k]? = some e' ∧
          e = if k ∈ h.parts then e'.cut time else e') ?_ rfl ?_
      · rintro buffer buffer' hbuffer e e' ⟨k, hk, rfl⟩
        split
        · exact Entry.getD_mix_cut (ht.entry k e' hk)
            (hforward e' (List.mem_of_getElem? hk)) htime hj hbuffer
        · exact Phrase.getD_mixInto_congr _ _ _ hbuffer
      · refine List.forall₂_iff_get.2 ⟨List.length_mapIdx, fun k hk hk' => ⟨k, ?_, ?_⟩⟩
        · exact List.getElem?_eq_getElem hk'
        · exact List.getElem_mapIdx

/-- Mixing up to a cut-off is mixing everything and then cutting it: before the place of the cut-off
there is what is there without one, and from that place on there is what was there before. So no
stop in any run changes anything before the time of the stop. -/
theorem mixing_truncated [Standing τ] :
    (∀ (p : Phrase τ σ) (start : τ) (cutOff : Option τ) (rate : Nat) (buffer : Array σ),
      p.Forward → isFinite start → (∀ c ∈ cutOff, isNumber c) →
        (p.exceeds start cutOff rate → p.exceeds start none rate) ∧
          Phrase.Truncated (Phrase.cutIndex? rate cutOff) buffer (p.mixInto start none rate buffer)
            (p.mixInto start cutOff rate buffer)) ∧
      ∀ moves : List (Move τ σ), (∀ m ∈ moves, m.IsTimed ∧ m.Forward) →
        ∀ (i : Nat) (time : τ), isNumber time → ∀ rate j, j < sampleIndex time rate →
          let t := (empty : Timeline τ σ).run moves
          ((t.stop i time).render rate)[j]?.getD 0 = (t.render rate)[j]?.getD 0 := by
  refine ⟨fun p start cutOff rate buffer hp hs hc => ⟨Phrase.exceeds_none hc p start, ?_, ?_, ?_⟩,
    fun moves hm i time htime rate j hj => ?_⟩
  · intro j hj
    cases cutOff with
    | some c => exact hp.getD_mixInto (begun_of_isFinite hs) (hc c rfl) (hj _ rfl) rfl
    | none => rfl
  · exact fun stop hstop j hj => Phrase.getElem?_mixInto_of_stop hstop hj p start buffer
  · exact fun stop hstop => Phrase.size_mixInto_le hstop p start buffer
  · have ht := recorded_empty.run fun m hmem => (hm m hmem).1
    have hforward := Forward.run (t := (empty : Timeline τ σ)) nofun fun m hmem => (hm m hmem).2
    exact ht.getD_render_stop hforward i htime hj

section

open scoped Octaves

/-- A tone and its release. -/
def bell : Phrase Rat Rat :=
  .tone ⟨1 / 2, 1 / 10, 1, .oscillator .square, ⟨0, 0, 1, 1 / 2⟩⟩

/-- After one tone two others, of which one is late. -/
def bells : Phrase Rat Rat :=
  .sequence [bell, .parallel [bell, .sequence [.silence (1 / 4), bell]]]

theorem forward_bell : bell.Forward := .tone (by decide +kernel)

theorem forward_bells : bells.Forward := by
  have hsilence : (.silence (1 / 4) : Phrase Rat Rat).Forward := .silence (by decide +kernel)
  simpa [bells, forward_bell] using hsilence

/-- Two tones with releases, in floating point: the second one starts before it is cut off. -/
def chimes : Phrase Float Float32 :=
  .sequence [.tone ⟨0.15, 440, 0.5, .oscillator .triangle, .drum⟩,
    .tone ⟨0.25, 220, 0.5, .oscillator .square, .drum⟩]

theorem forward_chimes : chimes.Forward := by
  have hfirst : (0 : Float) ≤ 0.15 := by decide +kernel
  have hsecond : (0 : Float) ≤ 0.25 := by decide +kernel
  simpa [chimes] using And.intro (Phrase.Forward.tone hfirst) (Phrase.Forward.tone hsecond)

theorem mixing_truncated_bells :
    bells.mixInto (1 / 4) none 4 #[1] = #[1, 1, 1, 3 / 2, 2, 3 / 2, 1 / 2] ∧
      bells.mixInto (1 / 4) (some (9 / 8)) 4 #[1] = #[1, 1, 1, 3 / 2, 2] ∧
      Phrase.Truncated (some 5) #[1] (bells.mixInto (1 / 4) none 4 #[1])
        (bells.mixInto (1 / 4) (some (9 / 8)) 4 #[1]) ∧
      (let t := (empty : Timeline Rat Rat).run [.play bells (1 / 4)]
      ((t.stop 0 (9 / 8)).render 4)[4]?.getD 0 = (t.render 4)[4]?.getD 0) ∧
      Phrase.Truncated (some 13230) #[1] (chimes.mixInto 0.1 none 44100 #[1])
        (chimes.mixInto 0.1 (some 0.3) 44100 #[1]) := by
  obtain ⟨htruncated, hstop⟩ := mixing_truncated (τ := Rat) (σ := Rat)
  refine ⟨by decide +kernel, by decide +kernel, ?_, ?_, ?_⟩
  · have hindex : Phrase.cutIndex? 4 (some (9 / 8 : Rat)) = some 5 := by decide +kernel
    rw [← hindex]
    exact (htruncated bells (1 / 4) (some (9 / 8)) 4 #[1] forward_bells rfl
      (by decide +kernel)).2
  · exact hstop [.play bells (1 / 4)] (List.forall_mem_singleton.2 ⟨trivial, forward_bells⟩) 0
      (9 / 8) (by decide +kernel) 4 4 (by decide +kernel)
  · have hindex : Phrase.cutIndex? 44100 (some (0.3 : Float)) = some 13230 := by decide +kernel
    rw [← hindex]
    exact (mixing_truncated.1 chimes 0.1 (some 0.3) 44100 #[1] forward_chimes
      (by decide +kernel) (by decide +kernel)).2

end

end Timeline

end

end MusicMacro
