import MusicMacro.Proofs.Backpressure
import MusicMacro.Proofs.Composition
import MusicMacro.Proofs.StopRequests
import MusicMacro.Proofs.VoiceHistory
import MusicMacro.Production

/-!
# Recitals

A recital submits chunks to a sequencer that nobody stops and whose device takes every phrase. Its
clock moves only while a submission waits, and no wait delays what comes next. So whatever the
ceiling is, every chunk starts where the one before it ends, and what is scheduled can be told from
the chunks alone.

The invariant is `Steady`: the next phrase starts at a known time.

* `line`, `score` — the phrase of a chunk and those of all chunks, by the states of the voices.
* `map_duration_score` — in exact time each of them lasts as long as its longest voice.
* `Timeline.backToBack` — phrases one after the other.
* `nextStart_awaitQueue` — a wait does not move the start of what comes next.
* `Steady.submit` — a submission schedules its phrase at that time.
* `recite_of_steady` — a recital schedules its score back to back.
* `finish_backToBack` — in exact time this ends when all its phrases have been played.
-/

namespace MusicMacro

variable {τ σ : Type}

/-! ## Scores -/

namespace Sequencer

/-- The states of the voices after a chunk. -/
def steppedTogether (setup : Setup τ σ) (voices : List (Option Voice)) (texts : List (List Char)) :
    List (Option Voice) :=
  updated voices (texts.mapIdx fun i text => stepped setup voices[i]?.join text)

variable [Scalar τ] [Scalar σ] [Tuned τ]

/-- The phrase of a chunk: the sequences of all its voices together. -/
def line (setup : Setup τ σ) (voices : List (Option Voice)) (texts : List (List Char)) :
    Phrase τ σ :=
  .parallel ((texts.mapIdx fun i text => (Fragment.ofText text).phrases setup voices[i]?.join
    (tempoOf setup texts i)).map .sequence)

/-- The phrases of chunks, each read from where those before it have left the voices. -/
def score (setup : Setup τ σ) (voices : List (Option Voice)) :
    List (List (List Char)) → List (Phrase τ σ)
  | [] => []
  | texts :: chunks =>
    line setup voices texts :: score setup (steppedTogether setup voices texts) chunks

theorem together_compose (s : Sequencer τ σ) (texts : List (List Char)) :
    together (s.compose texts) = line s.setup s.voices texts := by
  rw [together, map_phrase_compose]
  rfl

theorem updated_compose (s : Sequencer τ σ) (texts : List (List Char)) :
    updated s.voices ((s.compose texts).map (·.voice)) =
      steppedTogether s.setup s.voices texts := by
  rw [steppedTogether]
  congr 1
  refine List.ext_getElem? fun i => ?_
  rw [compose, voice_parts, List.getElem?_mapIdx, Nat.zero_add]
  rfl

/-- A score does not depend on the ceiling. -/
theorem score_ceiling (setup : Setup τ σ) (ceiling : Ceiling τ) (voices : List (Option Voice))
    (chunks : List (List (List Char))) :
    score { setup with maxQueued := ceiling } voices chunks = score setup voices chunks := by
  induction chunks generalizing voices with
  | nil => rfl
  | cons texts chunks ih =>
    rw [score, score, ih]
    rfl

end Sequencer

/-! ## How long a score lasts -/

namespace Sequencer

/-- In exact time a chunk lasts as long as the longest of its voices, and a voice as long as its
events at the tempo in force. -/
def longestVoice (setup : Setup Rat σ) (voices : List (Option Voice)) (texts : List (List Char)) :
    Rat :=
  (texts.mapIdx fun i text => 240 / (tempoOf setup texts i : Rat) *
    (((Fragment.ofText text).events setup voices[i]?.join).map Event.value).sum).foldl max 0

/-- How long each chunk lasts, read from where those before it have left the voices. -/
def longestVoices (setup : Setup Rat σ) (voices : List (Option Voice)) :
    List (List (List Char)) → List Rat
  | [] => []
  | texts :: chunks =>
    longestVoice setup voices texts ::
      longestVoices setup (steppedTogether setup voices texts) chunks

variable [Scalar σ] [Tuned Rat]

theorem duration_line (setup : Setup Rat σ) (voices : List (Option Voice))
    (texts : List (List Char)) : (line setup voices texts).duration =
      longestVoice setup voices texts := by
  rw [line, Phrase.duration_parallel, longestVoice, List.map_map]
  congr 1
  refine List.ext_getElem? fun i => ?_
  rw [List.getElem?_map, List.getElem?_mapIdx, List.getElem?_mapIdx, Option.map_map]
  congr 1
  funext text
  exact (Fragment.ofText text).duration_phrase setup voices[i]?.join (tempoOf setup texts i)

theorem map_duration_score (setup : Setup Rat σ) (voices : List (Option Voice))
    (chunks : List (List (List Char))) :
    (score setup voices chunks).map Phrase.duration = longestVoices setup voices chunks := by
  induction chunks generalizing voices with
  | nil => rfl
  | cons texts chunks ih => rw [score, List.map_cons, ih, duration_line, longestVoices]

theorem length_score (setup : Setup Rat σ) (voices : List (Option Voice))
    (chunks : List (List (List Char))) : (score setup voices chunks).length = chunks.length := by
  induction chunks generalizing voices with
  | nil => rfl
  | cons texts chunks ih => rw [score, List.length_cons, ih, List.length_cons]

theorem duration_score_nonneg {setup : Setup Rat σ} {voices : List (Option Voice)}
    {chunks : List (List (List Char))} {p : Phrase Rat σ} (hp : p ∈ score setup voices chunks) :
    0 ≤ p.duration := by
  induction chunks generalizing voices with
  | nil => cases hp
  | cons texts chunks ih =>
    rcases List.mem_cons.1 hp with rfl | hp
    · exact Phrase.duration_parallel_nonneg _
    · exact ih hp

end Sequencer

/-! ## Back to back -/

namespace Timeline

section

variable [Scalar τ]

/-- The entries of phrases one after the other. -/
def backToBack (start : τ) : List (Phrase τ σ) → List (Entry τ σ)
  | [] => []
  | p :: ps => ⟨p, start, p.duration, none⟩ :: backToBack (start + p.duration) ps

theorem length_backToBack (start : τ) (ps : List (Phrase τ σ)) :
    (backToBack start ps).length = ps.length := by
  induction ps generalizing start with
  | nil => rfl
  | cons p ps ih => rw [backToBack, List.length_cons, List.length_cons, ih]

theorem start_backToBack {start : τ} {ps : List (Phrase τ σ)} {e : Entry τ σ}
    (h : (backToBack start ps)[0]? = some e) : e.start = start := by
  cases ps with
  | nil => cases h
  | cons p ps =>
    cases h
    rfl

/-- Every phrase but the first starts where the one before it ends. -/
theorem start_eq_finish {start : τ} {ps : List (Phrase τ σ)} {k : Nat} {a b : Entry τ σ}
    (ha : (backToBack start ps)[k]? = some a) (hb : (backToBack start ps)[k + 1]? = some b) :
    b.start = a.finish := by
  induction ps generalizing start k with
  | nil => cases ha
  | cons p ps ih =>
    rw [backToBack] at ha hb
    rw [List.getElem?_cons_succ] at hb
    cases k with
    | zero =>
      cases ha
      exact start_backToBack hb
    | succ k => exact ih ha hb

end

/-- Phrases one after the other end when all of them have been played. -/
theorem finish_backToBack {start : Rat} {ps : List (Phrase Rat σ)}
    (hps : ∀ p ∈ ps, 0 ≤ p.duration) :
    (backToBack start ps).foldl (fun last e => Scalar.larger last e.finish) start =
      start + (ps.map Phrase.duration).sum := by
  induction ps generalizing start with
  | nil => exact (add_zero start).symm
  | cons p ps ih =>
    have hp := hps p List.mem_cons_self
    rw [backToBack, List.foldl_cons, Entry.finish_of_none rfl, Scalar.larger_eq_max,
      max_eq_right (le_add_of_nonneg_right hp), ih fun q hq => hps q (List.mem_cons_of_mem p hq),
      List.map_cons, List.sum_cons, add_assoc]

/-- A timeline of phrases back to back has one span for each of them, the first one at the start and
each of the others where the one before it ends. -/
theorem spans_backToBack [Scalar τ] {t : Timeline τ σ} {start : τ} {ps : List (Phrase τ σ)}
    (h : t.entries = backToBack start ps) :
    t.spans.length = ps.length ∧ (∀ span, t.spans[0]? = some span → span.1 = start) ∧
      ∀ (k : Nat) (a b : τ × τ), t.spans[k]? = some a → t.spans[k + 1]? = some b → b.1 = a.2 := by
  rw [spans, h]
  refine ⟨by rw [List.length_map, length_backToBack], fun span hspan => ?_, fun k a b ha hb => ?_⟩
  · rw [List.getElem?_map, Option.map_eq_some_iff] at hspan
    obtain ⟨e, he, rfl⟩ := hspan
    exact start_backToBack he
  · rw [List.getElem?_map, Option.map_eq_some_iff] at ha hb
    obtain ⟨d, hd, rfl⟩ := ha
    obtain ⟨e, he, rfl⟩ := hb
    exact start_eq_finish hd he

end Timeline

/-! ## Submissions in a recital -/

namespace Sequencer

section

variable {s after : Sequencer Rat σ}

/-- A wait does not move the start of what comes next. -/
theorem nextStart_awaitQueue (ha : s.awaitQueue = (true, after)) (hc : s.setup.check = .ok ()) :
    after.nextStart = s.nextStart := by
  cases hx : s.excess? with
  | none =>
    rw [awaitQueue, hx] at ha
    cases ha
    rfl
  | some excess =>
    obtain ⟨most, h, -, hmost, hh, hpos, hsum⟩ := excess_of_some hx hc
    have hlt : s.clock.now < h.finish := by linarith
    rw [nextStart_of_awaitQueue ha hc hh hlt, nextStart_of_handle hh, max_eq_right hlt.le]

/-- Nobody has pressed the stop handle or will do so in a wait, the device takes phrases, and it is
known when the next one starts. -/
structure Steady (s : Sequencer Rat σ) (next : Rat) : Prop where
  check : s.setup.check = .ok ()
  refusal : s.refusal = none
  press : s.clock.press = none
  next : s.nextStart = next

theorem steady_fresh {setup : Setup Rat σ} (hc : setup.check = .ok ()) : (fresh setup).Steady 0 :=
  ⟨hc, rfl, rfl, nextStart_of_none rfl⟩

variable [Scalar σ] [Tuned Rat] {next : Rat}

/-- A submission schedules its phrase where the next one was to start, and after it the next one
starts where this one ends. -/
theorem Steady.submit (hs : s.Steady next) (texts : List (List Char)) :
    let p := line s.setup s.voices texts
    let s' := (s.submit texts).sequencer
    (∃ sub, (s.submit texts).result = .ok sub) ∧ s'.setup = s.setup ∧
      s'.voices = steppedTogether s.setup s.voices texts ∧
      s'.timeline.entries = s.timeline.entries ++ [⟨p, next, p.duration, none⟩] ∧
      s'.Steady (next + p.duration) := by
  intro p s'
  obtain ⟨after, ha⟩ := awaitQueue_of_no_press hs.press
  obtain ⟨sub, hsub⟩ := submit_of_awaitQueue ha hs.refusal (fun _ => rfl) texts
  have hnext : after.nextStart = next := (nextStart_awaitQueue ha hs.check).trans hs.next
  have hstart : sub.start = next := by
    obtain ⟨after', ha', rfl, -⟩ := submit_of_ok hsub
    rw [ha] at ha'
    cases ha'
    exact hnext
  have hentries := (phrase_of_ok hsub).2
  have hlasts := finish_sub_start hsub
  rw [together_compose] at hentries hlasts
  rw [hstart] at hentries hlasts
  have hfinish : sub.finish = next + p.duration := by linarith
  refine ⟨⟨sub, hsub⟩, s.setup_submit texts, ?_, hentries, ?_, ?_, ?_, ?_⟩
  · rw [voices_of_ok hsub, updated_compose]
  · rw [s.setup_submit texts, hs.check]
  · obtain ⟨after', ha', -, heq⟩ := submit_of_ok hsub
    show (s.submit texts).sequencer.refusal = none
    rw [heq, ← hs.refusal]
    show after'.refusal = s.refusal
    rw [eq_of_awaitQueue ha']
  · rw [press_submit, hs.press, ite_self]
  · obtain ⟨h, hh, hhfinish⟩ := Option.map_eq_some_iff.1 (finish_of_ok hsub)
    have hnow : s'.clock.now ≤ next := by
      rw [clock_submit ha texts, ← hnext]
      exact after.now_le_nextStart
    have hnonneg : 0 ≤ p.duration := Phrase.duration_parallel_nonneg _
    rw [nextStart_of_handle hh, hhfinish, hfinish, max_eq_right (by linarith)]

/-- A recital schedules its score back to back. -/
theorem recite_of_steady (hs : s.Steady next) (i : Nat) (chunks : List (List Char)) :
    ∃ s', (s.recite i chunks).result = .ok s' ∧ s'.timeline.entries = s.timeline.entries ++
      Timeline.backToBack next (score s.setup s.voices (chunks.map splitVoices)) := by
  induction chunks generalizing s next i with
  | nil => exact ⟨s, rfl, (List.append_nil _).symm⟩
  | cons chunk chunks ih =>
    obtain ⟨⟨sub, hsub⟩, hsetup, hvoices, hentries, hsteady⟩ := hs.submit (splitVoices chunk)
    obtain ⟨s', hs', hscore⟩ := ih hsteady (i + 1)
    refine ⟨s', ?_, ?_⟩
    · rw [recite, hsub]
      exact hs'
    · rw [hscore, hsetup, hvoices, hentries, List.append_assoc]
      rfl

end

end Sequencer

end MusicMacro
