import MusicMacro.Proofs.Mixing
import MusicMacro.Proofs.Timeline.History

/-!
# What a stop silences

A stop that takes effect leaves nothing to be heard of what the handle covers, also not the release
of tones that were held until then. A stop that comes after the end takes no effect, and the release
that follows the end is heard.

* `getElem?_render_mute` — what is cut off can be left out from there on.
* `Recorded.cut_after_stop` — a stop that takes effect cuts off all that the handle covers.
* `silent_after_stop` — a stop silences what a handle covers, unless it has ended by itself.
* `release_after_stop` — a release that is heard after a stop.
-/

namespace MusicMacro

open Scalar

variable {τ σ : Type} [Scalar τ]

/-- Mixes an entry into a buffer. -/
def Entry.mix [Scalar σ] [Circular σ] [Narrow τ σ] (e : Entry τ σ) (rate : Nat)
    (buffer : Array σ) : Array σ :=
  e.phrase.mixInto e.start e.stoppedAt rate buffer

namespace Timeline

/-! ## What a stop cuts off -/

section

variable {t : Timeline τ σ} {log : List (Stop τ)} {made : List (Handle τ)}

/-- What a handle covers that was stopped is cut off by its end. -/
theorem Recorded.cut_of_stopped (ht : Recorded t log made) {i : Nat} {h : Handle τ}
    (hi : t.handles[i]? = some h) (hs : h.stoppedAt.isSome) {k : Nat} (hk : k ∈ h.parts)
    {e : Entry τ σ} (he : t.entries[k]? = some e) : ∃ c, e.stoppedAt = some c ∧ c ≤ h.finish := by
  obtain ⟨h₀, -, hh⟩ := ht.handle i h hi
  have hne : timesOf log i ≠ [] := by
    intro hnil
    rw [hh.stopped, if_pos hnil] at hs
    cases hs
  obtain ⟨s, hs, hhandle, htime⟩ := mem_timesWhere.1 (hh.mem hne)
  have hmem : h.finish ∈ t.timesAt log k := by
    refine mem_timesWhere.2 ⟨s, hs, ?_, htime⟩
    rw [covers, of_decide_eq_true hhandle, hi]
    exact decide_eq_true hk
  rcases (ht.entry k e he).stopped with ⟨-, hnil⟩ | ⟨c, hc, hearliest⟩
  · rw [hnil] at hmem
    cases hmem
  · exact ⟨c, hc, hearliest.2 _ hmem⟩

/-- After a stop all that the handle covers is cut off by the time of the stop, if the stop takes
effect or another one did so before. -/
theorem Recorded.cut_after_stop [Ordered τ] (ht : Recorded t log made) {i : Nat} {h : Handle τ}
    (hi : t.handles[i]? = some h) {time : τ} (htime : isNumber time)
    (hs : h.stoppedAt.isSome ∨ ¬h.finish ≤ time) {k : Nat} (hk : k ∈ h.parts) {e : Entry τ σ}
    (he : (t.stop i time).entries[k]? = some e) : ∃ c, e.stoppedAt = some c ∧ c ≤ time := by
  by_cases hle : h.finish ≤ time
  · rw [stop_of_finished hi hle] at he
    obtain ⟨c, hc, hcle⟩ := ht.cut_of_stopped hi (hs.resolve_right (not_not_intro hle)) hk he
    exact ⟨c, hc, Ordered.trans hcle hle⟩
  · rw [stop_eq hi, if_neg hle] at he
    obtain ⟨h₀, -, hh⟩ := ht.handle i h hi
    have hlt : time < h.finish := lt_of_not_le htime hh.finish.isNumber hle
    have hstopped : (t.cutOff i h time).handles[i]? = some (h.stop time) := by
      rw [Timeline.cutOff, List.getElem?_set_self (List.getElem?_eq_some_iff.1 hi).1]
    exact (ht.cutOff hi hlt).cut_of_stopped hstopped rfl hk he

end

/-! ## Leaving entries out -/

/-- The timeline with nothing to be heard of some of its entries. -/
def mute (t : Timeline τ σ) (ks : List Nat) : Timeline τ σ where
  entries := t.entries.mapIdx fun k e => if k ∈ ks then { e with phrase := .silence 0 } else e
  handles := t.handles

variable [Scalar σ] [Circular σ] [Narrow τ σ]

/-- What is mixed for two lists of entries is the same at a place if it is for each two entries. -/
theorem getElem?_foldl_mix {es es' : List (Entry τ σ)} {rate j : Nat} {buffer buffer' : Array σ}
    (hes : es.Forall₂ (fun e e' => ∀ buffer buffer' : Array σ, buffer[j]? = buffer'[j]? →
      (e.mix rate buffer)[j]? = (e'.mix rate buffer')[j]?) es')
    (h : buffer[j]? = buffer'[j]?) :
    (es.foldl (fun buffer e => e.mix rate buffer) buffer)[j]? =
      (es'.foldl (fun buffer e => e.mix rate buffer) buffer')[j]? := by
  induction hes generalizing buffer buffer' with
  | nil => exact h
  | cons he _ ih => exact ih (he buffer buffer' h)

/-- Entries that are cut off can be left out from there on. -/
theorem getElem?_render_mute {t : Timeline τ σ} {ks : List Nat} {rate j : Nat}
    (hks : ∀ k ∈ ks, ∀ e, t.entries[k]? = some e →
      ∃ c, e.stoppedAt = some c ∧ sampleIndex c rate ≤ j) :
    (t.render rate)[j]? = ((t.mute ks).render rate)[j]? := by
  refine getElem?_foldl_mix (List.forall₂_iff_get.2 ⟨List.length_mapIdx.symm, ?_⟩) rfl
  intro k hk hk' buffer buffer' h
  have hmute : (t.mute ks).entries.get ⟨k, hk'⟩ =
      if k ∈ ks then { t.entries[k] with phrase := .silence 0 } else t.entries[k] :=
    List.getElem_mapIdx
  rw [hmute, List.get_eq_getElem]
  by_cases hmem : k ∈ ks
  · obtain ⟨c, hc, hle⟩ := hks k hmem _ (List.getElem?_eq_getElem hk)
    rw [if_pos hmem, Entry.mix, Entry.mix, hc, Phrase.getElem?_mixInto_of_le _ _ hle,
      Phrase.getElem?_mixInto_of_le _ _ hle, h]
  · rw [if_neg hmem]
    exact Phrase.getElem?_mixInto_congr _ _ h

/-! ## Every run -/

/-- In every run a stop silences what a handle covers, if it comes before the end or if the handle
was stopped before: from its time on nothing that is covered is heard, so that it can be left out. A
handle that has ended by itself is not silenced, and its releases go on. -/
theorem silent_after_stop [Ordered τ] [Sampled τ] {moves : List (Move τ σ)}
    (hm : ∀ m ∈ moves, m.IsTimed) {i : Nat} {h : Handle τ}
    (hi : ((empty : Timeline τ σ).run moves).handles[i]? = some h) {time : τ}
    (htime : isNumber time) :
    let t := (empty : Timeline τ σ).run moves
    (h.stoppedAt.isSome ∨ ¬h.finish ≤ time → ∀ ks ⊆ h.parts, ∀ rate j,
      sampleIndex time rate ≤ j →
        ((t.stop i time).render rate)[j]? = (((t.stop i time).mute ks).render rate)[j]?) ∧
      (¬(h.stoppedAt.isSome ∨ ¬h.finish ≤ time) → t.stop i time = t) := by
  intro t
  have ht := recorded_empty.run hm
  refine ⟨fun hs ks hks rate j hj => getElem?_render_mute fun k hk e he => ?_, fun hs => ?_⟩
  · obtain ⟨c, hc, hle⟩ := ht.cut_after_stop hi htime hs (hks hk) he
    exact ⟨c, hc, le_trans (Sampled.sampleIndex_le rate hle) hj⟩
  · exact stop_of_finished hi (not_not.1 fun hle => hs (.inr hle))

section

open scoped Octaves

/-- A tone with a release as long as itself. -/
def fading : Phrase Rat Rat :=
  .tone ⟨1 / 2, 1 / 10, 1, .oscillator .square, ⟨0, 0, 1, 1 / 2⟩⟩

/-- Two tones as one, each with a release. -/
def faded : List (Move Rat Rat) := [.play fading 0, .splice 0 fading]

theorem silent_after_stop_faded :
    let t := (empty : Timeline Rat Rat).run faded
    t.handles[1]? = some ⟨[0, 1], 0, 1, none⟩ ∧ (∀ m ∈ faded, m.IsTimed) ∧
      t.render 4 = #[1, 1, 3 / 2, 1, 1 / 2] ∧ (t.stop 1 (3 / 4)).render 4 = #[1, 1, 3 / 2] ∧
      ((t.stop 1 (3 / 4)).render 4)[3]? = (((t.stop 1 (3 / 4)).mute [0, 1]).render 4)[3]? := by
  intro t
  have hi : t.handles[1]? = some ⟨[0, 1], 0, 1, none⟩ := by decide +kernel
  have hm : ∀ m ∈ faded, m.IsTimed := by decide +kernel
  have hsilent := (silent_after_stop hm hi (by decide +kernel : isNumber (3 / 4 : Rat))).1
  exact ⟨hi, hm, by decide +kernel, by decide +kernel,
    hsilent (by decide +kernel) _ (fun _ => id) 4 3 (by decide +kernel)⟩

/-- A tone that is stopped at its end goes on to sound: its release is heard. -/
theorem release_after_stop :
    ¬∀ (moves : List (Move Rat Rat)), (∀ m ∈ moves, m.IsTimed) → ∀ (i : Nat) (h : Handle Rat),
      ((empty : Timeline Rat Rat).run moves).handles[i]? = some h → ∀ time, 0 ≤ time →
        ∀ ks ⊆ h.parts, ∀ rate j, sampleIndex time rate ≤ j →
          ((((empty : Timeline Rat Rat).run moves).stop i time).render rate)[j]? =
            (((((empty : Timeline Rat Rat).run moves).stop i time).mute ks).render rate)[j]? := by
  intro hall
  have hsame := hall [.play fading 0] (by decide +kernel) 0 ⟨[0], 0, 1 / 2, none⟩
    (by decide +kernel) (1 / 2) (by norm_num) [0] (fun _ => id) 4 2 (by decide +kernel)
  exact absurd hsame (by decide +kernel)

end

end Timeline

end MusicMacro
