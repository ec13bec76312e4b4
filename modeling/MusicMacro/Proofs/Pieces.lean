import MusicMacro.Proofs.Backpressure
import MusicMacro.Proofs.Composition
import MusicMacro.Proofs.Melody.Boundary
import MusicMacro.Proofs.Placement

/-!
# Tunes in pieces

A tune may be submitted as a whole, or cut in two at a character that stands in no token. If the
second piece comes before the first has ended, both sound the same: the voice goes on where it left
off, and the second piece starts where the first ends, however long its submission waited.

* `Fragment.phrases_boundary`, `Fragment.voice_boundary` — what is played, and where the voice ends.
* `Scheduled` — what is left of a submission for the first voice.
* `Scheduled.soundsLike` — the tones of the pieces are those of the whole.
* `pieces_sound_like_whole` — the two ways of submitting a tune.
-/

namespace MusicMacro

/-! ## Fragments -/

namespace Fragment

/-- A fragment without directives. -/
def tune (text : List Char) : Fragment := ⟨[], text⟩

theorem ofText_of_read {text : List Char} (h : Directive.read text = none) :
    ofText text = tune text := by
  rw [ofText, Directive.strip, Scanner.many_of_none Directive.read_progresses h]
  rfl

section

variable {τ σ : Type} (setup : Setup τ σ) {x : Char}
  (hl : ∀ t, (setup.melody.pattern t).listed = true) (hb : isBlank x = false)
  (hx : setup.melody.Foreign x) (previous : Option Voice) (a b : List Char)

include hl hb hx

theorem voice_boundary :
    (tune (a ++ x :: b)).voice setup previous =
      (tune b).voice setup (some ((tune a).voice setup previous)) := by
  show Voice.melody (Melody.final _ (setup.melody.commands (a ++ x :: b))) = _
  rw [Melody.Tokens.commands_boundary hl hb hx, Melody.final_append]
  rfl

theorem phrases_boundary [Scalar τ] [Scalar σ] [Tuned τ] (tempo : Nat) :
    (tune (a ++ x :: b)).phrases setup previous tempo =
      (tune a).phrases setup previous tempo ++
        (tune b).phrases setup (some ((tune a).voice setup previous)) tempo := by
  show (Melody.notes _ (setup.melody.commands (a ++ x :: b))).map _ = _
  rw [Melody.Tokens.commands_boundary hl hb hx, Melody.notes_append, List.map_append]
  rfl

end

end Fragment

namespace Sequencer

variable {σ : Type}

/-! ## Submissions for a single voice -/

section

variable [Scalar σ] [Tuned Rat]

/-- The phrase of a tune that the first voice plays alone. -/
def solo (s : Sequencer Rat σ) (text : List Char) : Phrase Rat σ :=
  .parallel [(Fragment.tune text).phrase s.setup (s.voice? 0) s.setup.tempo]

theorem duration_solo (s : Sequencer Rat σ) (text : List Char) :
    (s.solo text).duration =
      (((Fragment.tune text).phrases s.setup (s.voice? 0) s.setup.tempo).map
        Phrase.duration).sum := by
  have h0 := (Fragment.tune text).duration_phrase_nonneg s.setup (s.voice? 0) s.setup.tempo
  rw [solo, Phrase.duration_parallel]
  show max 0 _ = _
  rw [max_eq_right h0, Fragment.phrase_eq, Phrase.duration_sequence]

theorem tones_solo (s : Sequencer Rat σ) (text : List Char) (start : Rat) :
    (s.solo text).tones start = Phrase.tonesInTurn start
      ((Fragment.tune text).phrases s.setup (s.voice? 0) s.setup.tempo) := by
  rw [solo, Phrase.tones, Phrase.tonesTogether, Phrase.tonesTogether, List.append_nil,
    Fragment.phrase_eq, Phrase.tones]

/-- The first voice has been given a tune, and nothing else: it starts at a time, and the voice has
moved on. -/
structure Scheduled (s : Sequencer Rat σ) (text : List Char) (start : Rat)
    (s' : Sequencer Rat σ) : Prop where
  setup : s'.setup = s.setup
  refusal : s'.refusal = s.refusal
  entries : s'.timeline.entries =
    s.timeline.entries ++ [⟨s.solo text, start, (s.solo text).duration, none⟩]
  voices : s'.voices = updated s.voices [(Fragment.tune text).voice s.setup (s.voice? 0)]
  finish : s'.handle?.map (·.finish) = some (start + (s.solo text).duration)

theorem Scheduled.voice?_zero {s s' : Sequencer Rat σ} {text : List Char} {start : Rat}
    (h : Scheduled s text start s') :
    s'.voice? 0 = some ((Fragment.tune text).voice s.setup (s.voice? 0)) := by
  rw [voice?, h.voices]
  rfl

theorem compose_tune {s : Sequencer Rat σ} {text : List Char} (h : Directive.read text = none) :
    together (s.compose [text]) = s.solo text ∧
      (s.compose [text]).map (·.voice) = [(Fragment.tune text).voice s.setup (s.voice? 0)] := by
  rw [compose, parts, parts, Fragment.ofText_of_read h]
  exact ⟨rfl, rfl⟩

/-- A tune that is not cancelled is scheduled after its wait, if the device takes phrases. -/
theorem scheduled_of_awaitQueue {s after : Sequencer Rat σ} (ha : s.awaitQueue = (true, after))
    (hr : s.refusal = none) {text : List Char} (h : Directive.read text = none) :
    ∃ sub, (s.submit [text]).result = .ok sub ∧ sub.start = after.nextStart ∧
      sub.finish = after.nextStart + (s.solo text).duration ∧
      Scheduled s text after.nextStart (s.submit [text]).sequencer := by
  obtain ⟨sub, hsub⟩ := submit_of_awaitQueue ha hr (fun _ => rfl) [text]
  obtain ⟨after', ha', heq, hseq⟩ := submit_of_ok hsub
  rw [ha] at ha'
  cases ha'
  have hstart : sub.start = after.nextStart := by rw [heq]; rfl
  obtain ⟨hphrase, hvoices⟩ := compose_tune (s := s) h
  obtain ⟨-, hentries⟩ := phrase_of_ok hsub
  have hlasts := finish_sub_start hsub
  have hends := finish_of_ok hsub
  rw [hphrase, hstart] at hentries hlasts
  rw [← hlasts, add_sub_cancel]
  refine ⟨sub, hsub, hstart, rfl, s.setup_submit [text], ?_, hentries, ?_, ?_⟩
  · rw [hseq]
    show after.refusal = s.refusal
    rw [eq_of_awaitQueue ha]
  · rw [voices_of_ok hsub, hvoices]
  · rw [hends, ← hlasts, add_sub_cancel]

/-! ## Two pieces -/

/-- Nothing tells two sequencers apart that is heard or played on: every tone is in the same place,
everything ends at the same time, and each voice is in the same state. -/
structure SoundsLike [Circular σ] [Narrow Rat σ] (s s' : Sequencer Rat σ) : Prop where
  tones : s.timeline.tones = s'.timeline.tones
  render : ∀ rate, s.timeline.render rate = s'.timeline.render rate
  voice : ∀ i, s.voice? i = s'.voice? i
  handle : s.handle?.map (·.finish) = s'.handle?.map (·.finish)
  finish : s.timeline.finish = s'.timeline.finish

section

variable {s s₁ s₂ s₃ : Sequencer Rat σ} {x : Char} {a b : List Char} {start : Rat}
  (hl : ∀ t, (s.setup.melody.pattern t).listed = true) (hb : isBlank x = false)
  (hx : s.setup.melody.Foreign x) (h₁ : Scheduled s a start s₁)

include hl hb hx h₁

/-- The phrases of the whole are those of its first piece, and then those of the second. -/
theorem Scheduled.phrases_append :
    (Fragment.tune (a ++ x :: b)).phrases s.setup (s.voice? 0) s.setup.tempo =
      (Fragment.tune a).phrases s.setup (s.voice? 0) s.setup.tempo ++
        (Fragment.tune b).phrases s₁.setup (s₁.voice? 0) s₁.setup.tempo := by
  rw [h₁.voice?_zero, h₁.setup]
  exact Fragment.phrases_boundary s.setup hl hb hx (s.voice? 0) a b s.setup.tempo

theorem Scheduled.duration_append :
    (s.solo (a ++ x :: b)).duration = (s.solo a).duration + (s₁.solo b).duration := by
  rw [duration_solo, duration_solo, duration_solo, h₁.phrases_append hl hb hx, List.map_append,
    List.sum_append]

theorem Scheduled.tones_append :
    (s.solo (a ++ x :: b)).tones start =
      (s.solo a).tones start ++ (s₁.solo b).tones (start + (s.solo a).duration) := by
  rw [tones_solo, tones_solo, tones_solo, h₁.phrases_append hl hb hx, Phrase.tonesInTurn_append,
    Phrase.total_eq, duration_solo]

/-- If the second piece starts where the first ends, it sounds as if both had been one. -/
theorem Scheduled.soundsLike [Circular σ] [Narrow Rat σ]
    (h₂ : Scheduled s₁ b (start + (s.solo a).duration) s₂)
    (h₃ : Scheduled s (a ++ x :: b) start s₃) : SoundsLike s₂ s₃ := by
  have htones := h₁.tones_append (b := b) hl hb hx
  have hduration := h₁.duration_append (b := b) hl hb hx
  have hentries : s₂.timeline.entries = s.timeline.entries ++
      [⟨s.solo a, start, (s.solo a).duration, none⟩,
        ⟨s₁.solo b, start + (s.solo a).duration, (s₁.solo b).duration, none⟩] := by
    rw [h₂.entries, h₁.entries, List.append_assoc]
    rfl
  refine ⟨?_, fun rate => ?_, fun i => ?_, ?_, ?_⟩
  · rw [Timeline.tones, Timeline.tones, hentries, h₃.entries, List.flatMap_append,
      List.flatMap_append]
    simp only [List.flatMap_cons, List.flatMap_nil, List.append_nil]
    rw [htones, List.map_append]
  · rw [Timeline.render_append s.timeline s₂.timeline hentries (by simp),
      Timeline.render_append s.timeline s₃.timeline h₃.entries (by simp)]
    simp only [List.flatMap_cons, List.flatMap_nil, List.append_nil]
    rw [htones]
  · have hvoices : s₂.voices = s₃.voices := by
      rw [h₂.voices, h₁.voices, h₃.voices, h₁.voice?_zero, h₁.setup,
        Fragment.voice_boundary s.setup hl hb hx]
      simp [updated]
    rw [voice?, voice?, hvoices]
  · rw [h₂.finish, h₃.finish, hduration, add_assoc]
  · rw [Timeline.finish, Timeline.finish, hentries, h₃.entries, List.foldl_append,
      List.foldl_append]
    simp only [List.foldl_cons, List.foldl_nil, Scalar.larger_eq_max]
    rw [Entry.finish_of_none rfl, Entry.finish_of_none rfl, Entry.finish_of_none rfl, max_assoc]
    dsimp only
    have h0 : 0 ≤ (s₁.solo b).duration := Phrase.duration_parallel_nonneg _
    rw [hduration, max_eq_right (le_add_of_nonneg_right h0), add_assoc]

end

/-- A tune that is cut in two at a foreign character sounds the same as the whole, if its second
piece comes before its first has ended, whatever the clock shows by then and however long the two
submissions wait. -/
theorem pieces_sound_like_whole [Circular σ] [Narrow Rat σ] {s : Sequencer Rat σ}
    (hc : s.setup.check = .ok ()) (hl : ∀ t, (s.setup.melody.pattern t).listed = true) {x : Char}
    (hb : isBlank x = false) (hx : s.setup.melody.Foreign x) {a b : List Char}
    (hd : ∀ text ∈ [a, b, a ++ x :: b], Directive.read text = none) (hr : s.refusal = none)
    (hn : (s.submit [a]).result ≠ .error .cancelled) :
    ∃ first whole, (s.submit [a]).result = .ok first ∧
      (s.submit [a ++ x :: b]).result = .ok whole ∧ first.start = whole.start ∧
      ∀ (clock : Clock Rat) (requested : Bool), clock.now < first.finish →
        let between : Sequencer Rat σ :=
          { (s.submit [a]).sequencer with clock := clock, stopRequested := requested }
        (between.submit [b]).result ≠ .error .cancelled →
        ∃ second, (between.submit [b]).result = .ok second ∧ second.start = first.finish ∧
          second.finish = whole.finish ∧
          SoundsLike (between.submit [b]).sequencer (s.submit [a ++ x :: b]).sequencer := by
  obtain ⟨after, ha⟩ := awaitQueue_of_not_cancelled hn
  obtain ⟨first, hfirst, hstart, hfinish, h₁⟩ :=
    scheduled_of_awaitQueue ha hr (hd a (by simp))
  obtain ⟨whole, hwhole, hstart', hfinish', h₃⟩ :=
    scheduled_of_awaitQueue ha hr (hd (a ++ x :: b) (by simp))
  refine ⟨first, whole, hfirst, hwhole, hstart.trans hstart'.symm, ?_⟩
  intro clock requested hlt between hn'
  have hbetween : Scheduled s a after.nextStart between :=
    ⟨h₁.setup, h₁.refusal, h₁.entries, h₁.voices, h₁.finish⟩
  obtain ⟨handle, hhandle, hend⟩ := Option.map_eq_some_iff.1 hbetween.finish
  rw [← hfinish] at hend
  obtain ⟨after', ha'⟩ := awaitQueue_of_not_cancelled hn'
  -- the second piece starts where the first ends
  have hnext : after'.nextStart = first.finish := by
    have hc' : between.setup.check = .ok () := by rw [hbetween.setup, hc]
    rw [nextStart_of_awaitQueue ha' hc' hhandle (by rw [hend]; exact hlt), hend]
  obtain ⟨second, hsecond, hstart'', hfinish'', h₂⟩ :=
    scheduled_of_awaitQueue ha' (hbetween.refusal.trans hr) (hd b (by simp))
  rw [hnext] at hstart'' hfinish'' h₂
  rw [hfinish] at h₂
  refine ⟨second, hsecond, hstart'', ?_, hbetween.soundsLike hl hb hx h₂ h₃⟩
  rw [hfinish'', hfinish', hfinish, hbetween.duration_append hl hb hx, add_assoc]

end

section

open scoped Octaves

theorem pieces_sound_like_whole_waiting :
    let s : Sequencer Rat Rat := fresh hasty
    let first : Sequencer Rat Rat := (s.submit [['>', 'a']]).sequencer
    let between : Sequencer Rat Rat := { first with clock := ⟨1 / 8, none⟩, stopRequested := true }
    SoundsLike (between.submit [['b', '8']]).sequencer
        (s.submit [['>', 'a', '!', 'b', '8']]).sequencer ∧
      (between.submit [['b', '8']]).sequencer.clock.now = 1 / 4 := by
  intro s first between
  have running {s' : Sequencer Rat Rat} {text : List Char}
      (hf : failure? (s'.submit [text]) ≠ some .cancelled) :
      (s'.submit [text]).result ≠ .error .cancelled := fun h => hf (failure?_eq_some_iff.2 h)
  obtain ⟨one, whole, hone, -, -, hpieces⟩ := pieces_sound_like_whole (s := s) (x := '!')
    (a := ['>', 'a']) (b := ['b', '8']) (by decide +kernel) (by decide +kernel) (by decide)
    (by decide +kernel) (by decide +kernel) rfl (running (by decide +kernel))
  have hend : (s.submit [['>', 'a']]).result.toOption.map (·.finish) = some (1 / 2) := by
    decide +kernel
  rw [hone] at hend
  have hfinish : one.finish = 1 / 2 := Option.some.inj hend
  have hlt : (1 / 8 : Rat) < one.finish := by
    rw [hfinish]
    norm_num
  obtain ⟨-, -, -, -, hsounds⟩ := hpieces ⟨1 / 8, none⟩ true hlt (running (by decide +kernel))
  exact ⟨hsounds, by decide +kernel⟩

end

end Sequencer

end MusicMacro
