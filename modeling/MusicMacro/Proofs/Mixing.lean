import MusicMacro.Proofs.Placement

/-!
# Mixing, place by place

What a place of a buffer holds after a phrase has been mixed depends on what it held before, and on
no other place. At and after a cut-off nothing is mixed.

* `mixInto_eq_foldl` — a phrase is mixed by mixing some tones, whatever is in the buffer.
* `getElem?_mixInto_congr` — what it adds at a place depends on what is there.
* `getElem?_mixInto_of_le` — no place at or after the cut-off is changed.
-/

namespace MusicMacro

open Scalar

variable {τ σ : Type} [Scalar τ] [Scalar σ] [Circular σ] [Narrow τ σ]

namespace Phrase

/-! ## One place of a buffer -/

section

variable {buffer buffer' samples : Array σ} {first stop j : Nat}

omit [Circular σ] in
/-- Zeros extend a buffer up to a place. -/
theorem getElem?_extended (buffer : Array σ) (stop j : Nat) :
    (buffer ++ Array.replicate (stop - buffer.size) 0)[j]? =
      buffer[j]?.or (if j < stop then some 0 else none) := by
  rw [Array.getElem?_append, Array.getElem?_replicate]
  by_cases hj : j < buffer.size
  · rw [if_pos hj, Array.getElem?_eq_getElem hj, Option.some_or]
  · rw [if_neg hj, Array.getElem?_eq_none (Nat.le_of_not_lt hj), Option.none_or]
    exact if_congr (by omega) rfl rfl

omit [Circular σ] in
/-- What is added at a place depends on nothing in the buffer but what is there. -/
theorem getElem?_addAt_congr (h : buffer[j]? = buffer'[j]?) :
    (addAt buffer samples first stop)[j]? = (addAt buffer' samples first stop)[j]? := by
  rw [addAt, addAt]
  split
  · exact h
  · rw [getElem?_addFrom le_rfl, getElem?_addFrom le_rfl, getElem?_extended, getElem?_extended, h]

omit [Circular σ] in
/-- Nothing is added at the place where adding stops, or after it. -/
theorem getElem?_addAt_of_le (h : stop ≤ j) :
    (addAt buffer samples first stop)[j]? = buffer[j]? := by
  rw [addAt]
  split
  · rfl
  · rw [getElem?_addFrom le_rfl, if_neg (by omega), getElem?_extended, if_neg (by omega),
      Option.or_none]

end

/-! ## Mixing some tones -/

/-- Mixes a tone that is cut off. -/
def mixCut (cutOff : Option τ) (rate : Nat) (buffer : Array σ) (t : Placed τ σ) : Array σ :=
  addTone t.tone t.start cutOff rate buffer

mutual

/-- A phrase is mixed by mixing some tones, whatever is in the buffer. -/
theorem mixInto_eq_foldl (p : Phrase τ σ) (start : τ) (cutOff : Option τ) (rate : Nat) :
    ∃ ts : List (Placed τ σ), ∀ buffer,
      p.mixInto start cutOff rate buffer = ts.foldl (mixCut cutOff rate) buffer := by
  by_cases hcut : isCut start cutOff
  · exact ⟨[], fun buffer => mixInto_of_isCut hcut p rate buffer⟩
  · cases p with
    | tone t => exact ⟨[⟨start, t⟩], fun buffer => by rw [mixInto, if_neg hcut]; rfl⟩
    | silence d => exact ⟨[], fun buffer => by rw [mixInto, if_neg hcut]; rfl⟩
    | sequence ps =>
      obtain ⟨ts, hts⟩ := mixSequence_eq_foldl ps start cutOff rate
      exact ⟨ts, fun buffer => by rw [mixInto, if_neg hcut, hts]⟩
    | parallel ps =>
      obtain ⟨ts, hts⟩ := mixParallel_eq_foldl ps start cutOff rate
      exact ⟨ts, fun buffer => by rw [mixInto, if_neg hcut, hts]⟩

theorem mixSequence_eq_foldl (ps : List (Phrase τ σ)) (start : τ) (cutOff : Option τ)
    (rate : Nat) : ∃ ts : List (Placed τ σ), ∀ buffer,
      mixSequence ps start cutOff rate buffer = ts.foldl (mixCut cutOff rate) buffer := by
  cases ps with
  | nil => exact ⟨[], fun buffer => by rw [mixSequence]; rfl⟩
  | cons p ps =>
    obtain ⟨ts, hts⟩ := mixInto_eq_foldl p start cutOff rate
    obtain ⟨us, hus⟩ := mixSequence_eq_foldl ps (start + p.duration) cutOff rate
    exact ⟨ts ++ us, fun buffer => by rw [mixSequence, hus, hts, List.foldl_append]⟩

theorem mixParallel_eq_foldl (ps : List (Phrase τ σ)) (start : τ) (cutOff : Option τ)
    (rate : Nat) : ∃ ts : List (Placed τ σ), ∀ buffer,
      mixParallel ps start cutOff rate buffer = ts.foldl (mixCut cutOff rate) buffer := by
  cases ps with
  | nil => exact ⟨[], fun buffer => by rw [mixParallel]; rfl⟩
  | cons p ps =>
    obtain ⟨ts, hts⟩ := mixInto_eq_foldl p start cutOff rate
    obtain ⟨us, hus⟩ := mixParallel_eq_foldl ps start cutOff rate
    exact ⟨ts ++ us, fun buffer => by rw [mixParallel, hus, hts, List.foldl_append]⟩

end

section

variable {cutOff : Option τ} {rate j : Nat} {buffer buffer' : Array σ}

theorem getElem?_foldl_congr (ts : List (Placed τ σ)) (h : buffer[j]? = buffer'[j]?) :
    (ts.foldl (mixCut cutOff rate) buffer)[j]? = (ts.foldl (mixCut cutOff rate) buffer')[j]? := by
  induction ts generalizing buffer buffer' with
  | nil => exact h
  | cons t ts ih => exact ih (getElem?_addAt_congr h)

theorem getElem?_foldl_of_le {c : τ} (ts : List (Placed τ σ)) (h : sampleIndex c rate ≤ j) :
    (ts.foldl (mixCut (some c) rate) buffer)[j]? = buffer[j]? := by
  induction ts generalizing buffer with
  | nil => rfl
  | cons t ts ih =>
    rw [List.foldl_cons, ih]
    exact getElem?_addAt_of_le (le_trans (Nat.min_le_right _ _) h)

/-- What a phrase adds at a place depends on nothing in the buffer but what is there. -/
theorem getElem?_mixInto_congr (p : Phrase τ σ) (start : τ) (h : buffer[j]? = buffer'[j]?) :
    (p.mixInto start cutOff rate buffer)[j]? = (p.mixInto start cutOff rate buffer')[j]? := by
  obtain ⟨ts, hts⟩ := mixInto_eq_foldl p start cutOff rate
  rw [hts, hts, getElem?_foldl_congr ts h]

/-- A phrase adds nothing at or after the cut-off. -/
theorem getElem?_mixInto_of_le (p : Phrase τ σ) (start : τ) {c : τ} (h : sampleIndex c rate ≤ j) :
    (p.mixInto start (some c) rate buffer)[j]? = buffer[j]? := by
  obtain ⟨ts, hts⟩ := mixInto_eq_foldl p start (some c) rate
  rw [hts, getElem?_foldl_of_le ts h]

end

end Phrase

end MusicMacro
