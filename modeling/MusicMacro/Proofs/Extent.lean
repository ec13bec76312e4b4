import Mathlib.Algebra.Order.Floor.Ring
import MusicMacro.Proofs.Ceiling
import MusicMacro.Proofs.Placement
import MusicMacro.Proofs.Timeline.History

/-!
# How long the audio is

A timeline reports when it ends, but what is rendered of it ends with its last tone. Only tones that
are held for at least one sample make it longer; silence does not, nor does a tone that is shorter
than half a sample. So the audio lasts as long as reported, up to a sample, where a tone that is
heard comes last, and a rest at the end is not there.

* `Tone.size_samples` — a tone has samples for as long as it is held, and perhaps a release.
* `Timeline.Uncut.size_render` — where nothing is cut off, the audio reaches as far as the tones that
  are heard.
* `Placed.finish_le_reach` — each of them reaches its end, up to a sample.
* `Timeline.Lasts`, `Uncut.lasts` — both together.
* `lasts_as_heard` — so it is for every run without stops, and for the file of every production.
* `rests_unwritten` — a rest at the end is reported, but not written.
-/

namespace MusicMacro

open Scalar

/-! ## Tones -/

namespace Sounding

variable {σ : Type} [Scalar σ] [Circular σ]

theorem size_hold (k : Setting σ) (n : Nat) (s : Sounding σ) (samples : Array σ) :
    (hold k n s samples).2.size = samples.size + n := by
  induction n generalizing s samples with
  | zero => rfl
  | succ n ih => rw [hold, ih, Array.size_push, Nat.add_assoc, Nat.add_comm 1]

theorem le_size_fade (k : Setting σ) (n : Nat) (s : Sounding σ) (samples : Array σ) :
    samples.size ≤ (fade k n s samples).size := by
  induction n generalizing s samples with
  | zero => exact Nat.le_refl _
  | succ n ih =>
    rw [fade]
    split
    · exact Nat.le_refl _
    · exact Nat.le_trans (by rw [Array.size_push]; exact Nat.le_succ _) (ih _ _)

end Sounding

section

variable {τ σ : Type} [Scalar τ] [Scalar σ] [Circular σ] [Narrow τ σ]

/-- A tone that is not held for a sample has none, and another has at least those for which it is
held. -/
theorem Tone.size_samples (t : Tone τ σ) (rate : Nat) :
    (t.heldSamples rate = 0 → (t.samples rate).size = 0) ∧
      t.heldSamples rate ≤ (t.samples rate).size := by
  rw [samples]
  by_cases h : t.heldSamples rate = 0
  · rw [if_pos h, h]
    exact ⟨fun _ => rfl, Nat.zero_le _⟩
  · rw [if_neg h]
    refine ⟨fun h' => absurd h' h, ?_⟩
    have hheld := Sounding.size_hold (t.setting rate) (t.heldSamples rate) t.start #[]
    rw [Array.size_empty, Nat.zero_add] at hheld
    exact hheld.symm.trans_le (Sounding.le_size_fade _ _ _ _)

/-! ## Buffers -/

omit [Scalar τ] [Circular σ] [Narrow τ σ] in
/-- A buffer is extended as far as samples are added to it. -/
theorem Phrase.size_addAt (buffer samples : Array σ) (first stop : Nat) :
    (addAt buffer samples first stop).size =
      if stop ≤ first then buffer.size else max buffer.size stop := by
  rw [addAt]
  split
  · rfl
  · rw [size_addFrom, Array.size_append, Array.size_replicate]
    omega

/-- The tone is held for at least one sample. -/
def Placed.isHeard (rate : Nat) (p : Placed τ σ) : Bool := p.tone.heldSamples rate ≠ 0

/-- The place behind the last sample of the tone, its release included. -/
def Placed.reach (rate : Nat) (p : Placed τ σ) : Nat :=
  sampleIndex p.start rate + (p.tone.samples rate).size

end

variable {σ : Type} [Scalar σ] [Circular σ] [Narrow Rat σ]

/-- The time until which the tone is held. -/
def Placed.finish (p : Placed Rat σ) : Rat := p.start + p.tone.duration

namespace Phrase

theorem size_mixPlaced (rate : Nat) (buffer : Array σ) (p : Placed Rat σ) :
    (mixPlaced rate buffer p).size =
      if p.isHeard rate then max buffer.size (p.reach rate) else buffer.size := by
  obtain ⟨hzero, hle⟩ := p.tone.size_samples rate
  have hstop : stopIndex (sampleIndex p.start rate) (p.tone.samples rate).size (none : Option Rat)
      rate = p.reach rate := rfl
  rw [mixPlaced, addTone, hstop, size_addAt, Placed.isHeard]
  by_cases h : p.tone.heldSamples rate = 0
  · rw [if_pos (by rw [Placed.reach, hzero h]; omega), if_neg (by simpa using h)]
  · rw [if_neg (by rw [Placed.reach]; omega), if_pos (by simpa using h)]

/-- Mixing tones extends a buffer as far as those reach that are heard. -/
theorem size_foldl_mixPlaced (rate : Nat) (ps : List (Placed Rat σ)) (buffer : Array σ) :
    (ps.foldl (mixPlaced rate) buffer).size =
      ((ps.filter (Placed.isHeard rate)).map (Placed.reach rate)).foldl max buffer.size := by
  induction ps generalizing buffer with
  | nil => rfl
  | cons p ps ih =>
    rw [List.foldl_cons, ih, size_mixPlaced]
    cases h : p.isHeard rate with
    | true => rw [List.filter_cons_of_pos h]; rfl
    | false => rw [List.filter_cons_of_neg (by rw [h]; exact Bool.false_ne_true)]; rfl

end Phrase

/-! ## Places and times -/

/-- No place is more than half a sample before its time. -/
theorem le_sampleIndex (time : Rat) (rate : Nat) :
    time * rate - 1 / 2 ≤ (sampleIndex time rate : Rat) := by
  let floor := (time * rate + 1 / 2).floor
  have hlt : time * rate + 1 / 2 < (floor + 1 : Int) := Rat.lt_floor_add_one _
  push_cast at hlt
  have hle : (floor : Rat) ≤ (floor.toNat : Rat) := by exact_mod_cast Int.self_le_toNat floor
  show time * rate - 1 / 2 ≤ (floor.toNat : Rat)
  linarith

/-- No time has a place behind a number of samples that it does not exceed. -/
theorem sampleIndex_le {time : Rat} {rate n : Nat} (h : time * rate ≤ n) :
    sampleIndex time rate ≤ n := nearest_le h

/-- A tone reaches its end, up to a sample: where it starts and how long it is held are each
rounded. -/
theorem Placed.finish_le_reach (p : Placed Rat σ) (rate : Nat) :
    p.finish * rate ≤ (p.reach rate : Rat) + 1 := by
  have hstart := le_sampleIndex p.start rate
  have hheld := le_sampleIndex p.tone.duration rate
  have hsize : ((p.tone.heldSamples rate : Nat) : Rat) ≤ ((p.tone.samples rate).size : Nat) := by
    exact_mod_cast (p.tone.size_samples rate).2
  rw [Tone.heldSamples] at hsize
  rw [finish, reach]
  push_cast
  linarith

/-! ## Timelines -/

theorem le_foldl_max (ns : List Nat) (n : Nat) :
    n ≤ ns.foldl max n ∧ ∀ m ∈ ns, m ≤ ns.foldl max n := by
  induction ns generalizing n with
  | nil => exact ⟨Nat.le_refl n, nofun⟩
  | cons k ns ih =>
    obtain ⟨hstart, hmem⟩ := ih (max n k)
    refine ⟨Nat.le_trans (Nat.le_max_left n k) hstart, fun m hm => ?_⟩
    rcases List.mem_cons.1 hm with rfl | hm
    · exact Nat.le_trans (Nat.le_max_right n m) hstart
    · exact hmem m hm

namespace Timeline

/-- The tones of all phrases that are held for at least one sample. -/
def heard (t : Timeline Rat σ) (rate : Nat) : List (Placed Rat σ) :=
  (t.entries.flatMap fun e => e.phrase.tones e.start).filter (Placed.isHeard rate)

/-- Nothing has been cut off. -/
def Uncut (t : Timeline Rat σ) : Prop := ∀ e ∈ t.entries, e.stoppedAt = none

/-- The audio reaches as far as the tones that are heard. -/
theorem Uncut.size_render {t : Timeline Rat σ} (h : t.Uncut) (rate : Nat) :
    (t.render rate).size = ((t.heard rate).map (Placed.reach rate)).foldl max 0 := by
  rw [render_append (empty : Timeline Rat σ) t rfl h, Phrase.size_foldl_mixPlaced]
  rfl

/-- Audio of a number of samples lasts as long as what is heard of a timeline: exactly as far as
tones reach, so up to a sample until the end of each of them, and until the end of everything unless
all that is heard has ended before. -/
structure Lasts (t : Timeline Rat σ) (rate size : Nat) : Prop where
  size_eq : size = ((t.heard rate).map (Placed.reach rate)).foldl max 0
  tone : ∀ p ∈ t.heard rate, p.finish * rate - 1 ≤ size ∧ sampleIndex p.finish rate ≤ size + 1
  finish : (∃ p ∈ t.heard rate, t.finish ≤ p.finish) →
    t.finish * rate - 1 ≤ size ∧ sampleIndex t.finish rate ≤ size + 1

theorem Uncut.lasts {t : Timeline Rat σ} (h : t.Uncut) (rate : Nat) :
    t.Lasts rate (t.render rate).size := by
  have hsize := h.size_render rate
  have hlasts : ∀ p ∈ t.heard rate, ∀ time ≤ p.finish,
      time * rate - 1 ≤ ((t.render rate).size : Rat) ∧
        sampleIndex time rate ≤ (t.render rate).size + 1 := by
    intro p hp time htime
    have hreach : p.reach rate ≤ (t.render rate).size := by
      rw [hsize]
      exact (le_foldl_max _ 0).2 _ (List.mem_map.2 ⟨p, hp, rfl⟩)
    have hcast : (p.reach rate : Rat) ≤ ((t.render rate).size : Rat) := by exact_mod_cast hreach
    have hend := p.finish_le_reach rate
    have hscaled : time * rate ≤ p.finish * rate :=
      mul_le_mul_of_nonneg_right htime (Nat.cast_nonneg rate)
    refine ⟨by linarith, sampleIndex_le ?_⟩
    push_cast
    linarith
  exact ⟨hsize, fun p hp => hlasts p hp p.finish le_rfl,
    fun ⟨p, hp, hlast⟩ => hlasts p hp t.finish hlast⟩

/-! ## Runs without stops -/

omit [Scalar σ] [Circular σ] [Narrow Rat σ] in
/-- Scheduling cuts nothing off. -/
theorem Uncut.move {t : Timeline Rat σ} (h : t.Uncut) {m : Move Rat σ}
    (hm : ∀ i time, m ≠ .stop i time) : (t.move m).Uncut := by
  rcases t.move_cases m with ⟨hsame, -⟩ | ⟨p, start, parts, first, -, -, -, hadd⟩ |
    ⟨i, time, _, hstop, -⟩
  · rw [hsame]
    exact h
  · rw [hadd]
    intro e he
    rcases List.mem_append.1 he with he | he
    · exact h e he
    · rw [List.mem_singleton.1 he]
  · exact absurd hstop (hm i time)

omit [Scalar σ] [Circular σ] [Narrow Rat σ] in
/-- Nothing is cut off in a run without stops. -/
theorem Uncut.run {t : Timeline Rat σ} (h : t.Uncut) {moves : List (Move Rat σ)}
    (hm : ∀ i time, .stop i time ∉ moves) : (t.run moves).Uncut := by
  induction moves generalizing t with
  | nil => exact h
  | cons m moves ih =>
    refine ih (t := t.move m) (h.move fun i time heq => ?_) fun i time hmem => ?_
    · exact hm i time (heq ▸ List.mem_cons_self)
    · exact hm i time (List.mem_cons_of_mem m hmem)

omit [Scalar σ] [Circular σ] [Narrow Rat σ] in
theorem uncut_backToBack (start : Rat) (ps : List (Phrase Rat σ)) :
    ∀ e ∈ backToBack start ps, e.stoppedAt = none := by
  induction ps generalizing start with
  | nil => exact nofun
  | cons p ps ih => exact List.forall_mem_cons.2 ⟨rfl, ih _⟩

end Timeline

/-! ## Productions -/

section

variable [Tuned Rat] [Dyadic σ]

/-- A production that comes to something had a setup and a valid ceiling. -/
theorem Options.setup_of_produce {o : Options Rat} {read : Reader} {p : Production Rat σ}
    (h : (o.produce read).result = .ok p) :
    ∃ setup : Setup Rat σ, (o.arrange read).setup = .ok setup ∧ o.maxQueued.isValid := by
  rw [produce] at h
  dsimp only at h
  cases hs : (o.arrange read : Arrangement Rat σ).setup with
  | error e =>
    rw [hs] at h
    cases h
  | ok setup =>
    rw [hs] at h
    dsimp only at h
    rw [perform] at h
    cases hc : Sequencer.create setup with
    | error e =>
      rw [hc] at h
      cases h
    | ok s =>
      obtain ⟨drums, instruments, -, -, rfl⟩ := setup_arrange_eq_ok_iff.1 hs
      have hcheck := (Setup.check_eq_ok_iff _).1 (Sequencer.create_eq_ok_iff.1 hc).1
      exact ⟨_, rfl, hcheck.2.1⟩

/-- What a production comes to is rendered of a timeline from which nothing is cut off. -/
theorem Options.exists_timeline {o : Options Rat} {read : Reader} {p : Production Rat σ}
    (h : (o.produce read).result = .ok p) :
    ∃ (setup : Setup Rat σ) (s₀ s : Sequencer Rat σ), (o.arrange read).setup = .ok setup ∧
      Sequencer.create setup = .ok s₀ ∧
      (s₀.recite 0 (o.chunks.map String.toList)).result = .ok s ∧
      s.timeline.Uncut ∧ p = ⟨s.timeline.render o.rate, o.rate, s.timeline.finish⟩ := by
  obtain ⟨setup, hs, hv⟩ := setup_of_produce h
  obtain ⟨s₀, s, hcreate, hrecite, hentries, hresult⟩ := exists_recital hs hv
  refine ⟨setup, s₀, s, hs, hcreate, hrecite, ?_, ?_⟩
  · rw [Timeline.Uncut, hentries]
    exact Timeline.uncut_backToBack 0 _
  · rw [hresult, Timeline.result_produce, Timeline.render?] at h
    split at h
    · next hnone =>
      cases h
    · next samples hsome =>
      split at hsome
      · cases hsome
      · cases hsome
        exact (Except.ok.inj h).symm

/-- The folder afterwards holds the file of a production that comes to something. -/
theorem Folder.read_produce {f : Folder} {o : Options Rat} {finish : Rat}
    (h : (f.produce o : Account Rat σ Rat × Folder).1.result = .ok finish) :
    ∃ p : Production Rat σ, (o.produce f.read).result = .ok p ∧ finish = p.finish ∧
      (f.produce o : Account Rat σ Rat × Folder).2.read o.output = .ok p.file := by
  rw [result_produce] at h
  rw [folder_produce]
  cases hp : (o.produce f.read : Account Rat σ (Production Rat σ)).result with
  | error e =>
    rw [hp] at h
    cases h
  | ok p =>
    rw [hp] at h
    dsimp only at h ⊢
    cases hw : f.write o.output p.file with
    | error e =>
      rw [hw] at h
      cases h
    | ok f' =>
      rw [hw] at h
      cases h
      exact ⟨p, rfl, rfl, read_of_write hw⟩

/-- In every run without stops the audio lasts as long as what is heard, at every rate. So does the
file that a production leaves: it holds as many samples of two bytes, and the time that is reported
is that at which everything ends. -/
theorem lasts_as_heard :
    (∀ moves : List (Timeline.Move Rat σ), (∀ i time, .stop i time ∉ moves) → ∀ rate,
      let t := (Timeline.empty : Timeline Rat σ).run moves
      t.Lasts rate (t.render rate).size) ∧
    ∀ (f : Folder) (o : Options Rat) (finish : Rat),
      (f.produce o : Account Rat σ Rat × Folder).1.result = .ok finish →
        ∃ (setup : Setup Rat σ) (s₀ s : Sequencer Rat σ) (file : Bytes) (frames : Nat),
          (o.arrange f.read).setup = .ok setup ∧ Sequencer.create setup = .ok s₀ ∧
          (s₀.recite 0 (o.chunks.map String.toList)).result = .ok s ∧
          finish = s.timeline.finish ∧
          (f.produce o : Account Rat σ Rat × Folder).2.read o.output = .ok file ∧
          file.size = 44 + 2 * frames ∧ s.timeline.Lasts o.rate frames := by
  refine ⟨fun moves hm rate => ?_, fun f o finish h => ?_⟩
  · have hempty : (Timeline.empty : Timeline Rat σ).Uncut := nofun
    exact (hempty.run hm).lasts rate
  · obtain ⟨p, hp, rfl, hread⟩ := Folder.read_produce h
    obtain ⟨setup, s₀, s, hs, hcreate, hrecite, huncut, rfl⟩ := Options.exists_timeline hp
    exact ⟨setup, s₀, s, _, _, hs, hcreate, hrecite, rfl, hread, WaveFile.size_encode _ 1 o.rate,
      huncut.lasts o.rate⟩

end

section

open scoped Octaves

/-- A tone of a second behind half a second of silence, and silence behind it. -/
def padded : List (Timeline.Move Rat Rat) :=
  [.play (.sequence [.silence (1 / 2), .tone ⟨1, 1 / 10, 1, .oscillator .square, .drum⟩]) 0,
    .splice 0 (.silence 2)]

/-- A rest in front of a tone. -/
def late : Options Rat := { (.default ["r1", "l2c"] : Options Rat) with rate := 4 }

/-- The silence in front of a tone is there, and that behind it is not. A production that ends with
a tone is written from time zero to its end. -/
theorem lasts_as_heard_padded :
    let t := (Timeline.empty : Timeline Rat Rat).run padded
    let production : Account Rat Rat Rat × Folder := (⟨[]⟩ : Folder).produce late
    (∀ i time, .stop i time ∉ padded) ∧ t.finish = 7 / 2 ∧ t.Lasts 4 6 ∧
      production.1.result = .ok 3 ∧ ∃ (s : Sequencer Rat Rat) (file : Bytes),
        s.timeline.finish = 3 ∧ production.2.read late.output = .ok file ∧
        file.size = 44 + 2 * 12 ∧ s.timeline.Lasts 4 12 := by
  intro t production
  have hm : ∀ i time, .stop i time ∉ padded := by simp [padded]
  have hsize : (t.render 4).size = 6 := by decide +kernel
  have hresult : production.1.result = .ok 3 := by decide +kernel
  obtain ⟨hruns, hproductions⟩ := lasts_as_heard (σ := Rat)
  obtain ⟨-, -, s, file, frames, -, -, -, hfinish, hread, hfile, hlasts⟩ :=
    hproductions ⟨[]⟩ late 3 hresult
  have hbytes : (production.2.read late.output).map Array.size = .ok 68 := by decide +kernel
  rw [hread] at hbytes
  have hframes : frames = 12 := by
    have h68 : file.size = 68 := Except.ok.inj hbytes
    omega
  subst hframes
  have hrun : t.Lasts 4 (t.render 4).size := hruns padded hm 4
  rw [hsize] at hrun
  exact ⟨hm, by decide +kernel, hrun, hresult, s, file, hfinish.symm, hread, hfile, hlasts⟩

/-- A rest at the end is reported, but nothing is written of it. -/
theorem rests_unwritten :
    (¬∀ moves : List (Timeline.Move Rat Rat), (∀ i time, .stop i time ∉ moves) → ∀ rate,
      let t := (Timeline.empty : Timeline Rat Rat).run moves
      sampleIndex t.finish rate ≤ (t.render rate).size + 1) ∧
    ¬∀ (f : Folder) (o : Options Rat) (finish : Rat),
      (f.produce o : Account Rat Rat Rat × Folder).1.result = .ok finish → ∀ file,
        (f.produce o : Account Rat Rat Rat × Folder).2.read o.output = .ok file →
          finish * o.rate - 1 ≤ ((file.size - 44) / 2 : Nat) := by
  constructor
  · intro hall
    have h := hall [.play (.silence 1) 0] (by simp) 4
    exact absurd h (by decide +kernel)
  · intro hall
    have h := hall ⟨[]⟩ { (.default ["r1"] : Options Rat) with rate := 4 } 2 (by decide +kernel)
      (WaveFile.encode (#[] : Array Rat) 1 4) (by decide +kernel)
    exact absurd h (by decide +kernel)

end

end MusicMacro
