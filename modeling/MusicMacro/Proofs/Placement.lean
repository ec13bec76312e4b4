import MusicMacro.Proofs.Exact

/-!
# Where tones are

A phrase that starts at a time places each of its tones at a time of its own: in a sequence after
all that stands before it, in a parallel phrase together with all the others. What a phrase adds to
a buffer depends on these tones alone.

* `Phrase.tones`, `Timeline.tones` — the tones with the times at which they start.
* `tonesInTurn_append` — a sequence goes on where its first part ends.
* `mixInto_eq` — without a cut-off a phrase is mixed by mixing its tones.
* `render_append` — phrases that are scheduled later are mixed on top of the others.
-/

namespace MusicMacro

/-- A tone that starts at a time. -/
structure Placed (τ σ : Type) where
  start : τ
  tone : Tone τ σ

variable {τ σ : Type}

namespace Phrase

section

variable [Scalar τ]

mutual

/-- The tones of a phrase that starts at a time, in the order in which they stand in it. -/
def tones (start : τ) : Phrase τ σ → List (Placed τ σ)
  | tone t => [⟨start, t⟩]
  | silence _ => []
  | sequence ps => tonesInTurn start ps
  | parallel ps => tonesTogether start ps

/-- The tones of phrases one after the other. -/
def tonesInTurn (start : τ) : List (Phrase τ σ) → List (Placed τ σ)
  | [] => []
  | p :: ps => p.tones start ++ tonesInTurn (start + p.duration) ps

/-- The tones of phrases that start together. -/
def tonesTogether (start : τ) : List (Phrase τ σ) → List (Placed τ σ)
  | [] => []
  | p :: ps => p.tones start ++ tonesTogether start ps

end

theorem tonesInTurn_append (start : τ) (ps qs : List (Phrase τ σ)) :
    tonesInTurn start (ps ++ qs) = tonesInTurn start ps ++ tonesInTurn (total start ps) qs := by
  induction ps generalizing start with
  | nil => rw [tonesInTurn, total]; rfl
  | cons p ps ih => rw [List.cons_append, tonesInTurn, tonesInTurn, total, ih, List.append_assoc]

end

/-! ## Mixing -/

/-- Mixes a tone that is not cut off. -/
def mixPlaced [Scalar τ] [Scalar σ] [Circular σ] [Narrow τ σ] (rate : Nat) (buffer : Array σ)
    (t : Placed τ σ) : Array σ := addTone t.tone t.start none rate buffer

variable [Scalar σ] [Circular σ] [Narrow Rat σ]

/-- Without a cut-off nothing is left out. -/
theorem isCut_none (time : Rat) : isCut time none = false := rfl

mutual

/-- Without a cut-off a phrase is mixed by mixing its tones. -/
theorem mixInto_eq (p : Phrase Rat σ) (start : Rat) (rate : Nat) (buffer : Array σ) :
    p.mixInto start none rate buffer =
      (p.tones start).foldl (mixPlaced rate) buffer := by
  rw [mixInto.eq_def, isCut_none]
  cases p with
  | tone t => rw [tones]; rfl
  | silence d => rw [tones]; rfl
  | sequence ps => rw [tones]; exact mixSequence_eq ps start rate buffer
  | parallel ps => rw [tones]; exact mixParallel_eq ps start rate buffer

theorem mixSequence_eq (ps : List (Phrase Rat σ)) (start : Rat) (rate : Nat) (buffer : Array σ) :
    mixSequence ps start none rate buffer =
      (tonesInTurn start ps).foldl (mixPlaced rate) buffer := by
  cases ps with
  | nil => rw [mixSequence, tonesInTurn]; rfl
  | cons p ps =>
    rw [mixSequence, tonesInTurn, List.foldl_append, mixInto_eq p, mixSequence_eq ps]

theorem mixParallel_eq (ps : List (Phrase Rat σ)) (start : Rat) (rate : Nat) (buffer : Array σ) :
    mixParallel ps start none rate buffer =
      (tonesTogether start ps).foldl (mixPlaced rate) buffer := by
  cases ps with
  | nil => rw [mixParallel, tonesTogether]; rfl
  | cons p ps =>
    rw [mixParallel, tonesTogether, List.foldl_append, mixInto_eq p, mixParallel_eq ps]

end

end Phrase

namespace Timeline

/-- The tones of all phrases that have been scheduled, each with the cut-off of its phrase. -/
def tones [Scalar τ] (t : Timeline τ σ) : List (Placed τ σ × Option τ) :=
  t.entries.flatMap fun e => (e.phrase.tones e.start).map (·, e.stoppedAt)

/-- Phrases that are not cut off and that are scheduled later are mixed on top of the others. -/
theorem render_append [Scalar σ] [Circular σ] [Narrow Rat σ] (t t' : Timeline Rat σ)
    {es : List (Entry Rat σ)} (he : t'.entries = t.entries ++ es)
    (hs : ∀ e ∈ es, e.stoppedAt = none) (rate : Nat) :
    t'.render rate =
      (es.flatMap fun e => e.phrase.tones e.start).foldl (Phrase.mixPlaced rate)
        (t.render rate) := by
  rw [render, he, List.foldl_append, ← render]
  generalize t.render rate = buffer
  clear he
  induction es generalizing buffer with
  | nil => rfl
  | cons e es ih =>
    have hes := fun e' he' => hs e' (List.mem_cons_of_mem _ he')
    rw [List.foldl_cons, List.flatMap_cons, List.foldl_append, ih hes, hs e List.mem_cons_self,
      Phrase.mixInto_eq]

end Timeline

end MusicMacro
