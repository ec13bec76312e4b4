import MusicMacro.Proofs.Composition
import MusicMacro.Proofs.Melody.Meaning

/-!
# The instruments of a submission

Directives ask for instruments by number. Within one voice the last number counts that there is an
instrument for; where there is none the number is warned about, and changes nothing. No voice hears
of what another one asks for. Percussion has an instrument for every drum, and is warned all the
same.

* `Directive.exists_digits_of_read` — how a number is written.
* `Fragment.requests` — the numbers that a fragment asks for.
* `Fragment.getElem?_chosen` — the number that counts, and that there is an instrument for it.
* `Fragment.warnings_eq` — the warnings about a fragment, by the numbers.
* `Sings`, `Strikes` — how notes and beats sound.
* `Sings.eq_tone` — the frequency of a note, in numbers of 64 bits.
* `sound_of_submission` — the warnings of a submission, and how its voices sound.
-/

namespace MusicMacro

/-! ## Numbers of instruments -/

namespace Directive

/-- The number of the instrument that a directive asks for, if it asks for one. -/
def requested? : Directive → Option Nat
  | .instrument n => some n
  | .tempo _ | .percussion => none

theorem eq_of_toLower_eq_at {c : Char} (h : c.toLower = '@') : c = '@' := by
  unfold Char.toLower at h
  split at h
  · next hupper =>
    have hval : (c.val + 32).toNat = 64 := congrArg (fun c : Char => c.val.toNat) h
    have hfirst : 65 ≤ c.val.toNat := UInt32.le_iff_toNat_le.1 hupper.1
    have hlast : c.val.toNat ≤ 90 := UInt32.le_iff_toNat_le.1 hupper.2
    have h32 : (32 : UInt32).toNat = 32 := rfl
    rw [UInt32.toNat_add] at hval
    omega
  · exact h

/-- A number is written in digits after a sign of its own. It is the one that the digits write, or
the greatest of 64 bits if they write one beyond. -/
theorem exists_digits_of_read {cs rest : List Char} {n : Nat}
    (h : read cs = some (.instrument n, rest)) :
    ∃ digits, digits ≠ [] ∧ (∀ c ∈ digits, c.isDigit) ∧ skipBlanks cs = '@' :: digits ++ rest ∧
      n = if digitsValue digits < 2 ^ 64 then digitsValue digits else 2 ^ 64 - 1 := by
  obtain ⟨text, rfl, hw, -⟩ := written_of_read h
  generalize hd : Directive.instrument n = d at hw
  cases hw with
  | tempo => cases hd
  | percussion => cases hd
  | @instrument blanks word digits hblanks hword hne hdigits =>
    obtain ⟨c, rfl, hc⟩ := List.map_eq_singleton_iff.1 hword
    refine ⟨digits, hne, hdigits, ?_, Directive.instrument.inj hd⟩
    rw [List.append_assoc, List.append_assoc, skipBlanks_word hblanks hword (by decide),
      eq_of_toLower_eq_at hc]
    rfl

end Directive

namespace Fragment

/-- The numbers of the instruments that a fragment asks for, in order. -/
def requests (text : List Char) : List Nat :=
  (Directive.strip text).1.filterMap Directive.requested?

/-- The first number that there is something for is the first one in range. -/
theorem findSome?_getElem? {α : Type} (xs : List α) (ns : List Nat) :
    ns.findSome? (xs[·]?) = (ns.find? (· < xs.length)).bind (xs[·]?) := by
  induction ns with
  | nil => rfl
  | cons n ns ih =>
    by_cases h : n < xs.length
    · simp [h]
    · simp [h, ih]

theorem choice?_eq {α : Type} (instruments : List α) (d : Directive) :
    choice? instruments d = d.requested?.bind (instruments[·]?) := by
  cases d <;> rfl

/-- The instrument of a fragment is the one with the last number that is in range, or the first of
all; there is always one with this number. -/
theorem getElem?_chosen {σ : Type} (text : List Char) {instruments : List (Instrument σ)}
    (h : instruments ≠ []) :
    instruments[((requests text).filter (· < instruments.length)).getLast?.getD 0]? =
      some ((ofText text).instrument instruments) := by
  have hchoices : (Directive.strip text).1.filterMap (choice? instruments) =
      (requests text).filterMap (instruments[·]?) := by
    rw [requests, List.filterMap_filterMap]
    exact List.filterMap_congr fun d _ => choice?_eq instruments d
  rw [instrument, ofText, hchoices, List.getLast?_filterMap, List.getLast?_filter,
    findSome?_getElem?]
  cases hlast : (requests text).reverse.find? (· < instruments.length) with
  | none =>
    rw [Option.bind_none, Option.getD_none, Option.getD_none]
    obtain ⟨i, rest, rfl⟩ := List.exists_cons_of_ne_nil h
    rfl
  | some n =>
    have hn : n < instruments.length := by simpa using List.find?_some hlast
    rw [Option.bind_some, Option.getD_some, List.getElem?_eq_getElem hn, Option.getD_some]

/-- There is a warning about every number that is out of range, in order. -/
theorem warnings_eq (text : List Char) (voice available : Nat) :
    (ofText text).warnings voice available =
      ((requests text).filter (available ≤ ·)).map (⟨voice, ·, available⟩) := by
  rw [warnings, ofText, requests]
  induction (Directive.strip text).1 with
  | nil => rfl
  | cons d ds ih =>
    cases d with
    | tempo t => exact ih
    | percussion => exact ih
    | instrument n =>
      by_cases hn : n < available
      · have hle : ¬available ≤ n := Nat.not_le.2 hn
        simpa [warning?, Directive.requested?, hn, hle] using ih
      · have hle : available ≤ n := Nat.not_lt.1 hn
        simpa [warning?, Directive.requested?, hn, hle] using ih

end Fragment

/-! ## How events sound -/

variable {τ σ : Type} [Scalar τ]

/-- The phrase plays the note on an instrument: in equal temperament, and with the envelope of the
instrument. -/
inductive Sings [Scalar σ] [Tuned τ] (amplitude : τ) (i : Instrument σ) :
    Melody.Note → Phrase τ σ → Prop
  | tone {p : Pitch} {a : NoteLength} {d : τ} :
    Sings amplitude i ⟨some p, a⟩
      (.tone ⟨d, ((440 : Nat) : τ) * Tuned.ratio (p - 45).toInt, amplitude, i, i.envelope⟩)
  | rest {a : NoteLength} {d : τ} : Sings amplitude i ⟨none, a⟩ (.silence d)

/-- A note sounds as many semitones above 440 Hz as its pitch is above 45, as long as that many fit
in 32 bits. -/
theorem Sings.eq_tone {amplitude : Float} {i : Instrument Float32} {p : Pitch} {a : NoteLength}
    {phrase : Phrase Float Float32} (h : Sings amplitude i ⟨some p, a⟩ phrase)
    (hp : Melody.Fits (p.toInt - 45)) :
    ∃ d, phrase = .tone ⟨d, 440 * Float.pow 2 (Float.ofInt (p.toInt - 45) / 12), amplitude, i,
      i.envelope⟩ := by
  have hdistance : (p - 45).toInt = p.toInt - 45 := by
    have hsub : p - 45 = Int32.ofInt (p.toInt - 45) := by
      rw [Int32.ofInt_sub, Int32.ofInt_toInt]
      rfl
    rw [hsub, hp.toInt_ofInt]
  cases h with
  | tone =>
    rw [hdistance]
    exact ⟨_, rfl⟩

/-- The phrase plays the beat on the instrument that the beat has: at one frequency, and with the
envelope of drums. -/
inductive Strikes [Scalar σ] (amplitude : τ) :
    Percussion.Beat (Instrument σ) → Phrase τ σ → Prop
  | tone {i : Instrument σ} {a : NoteLength} {d : τ} :
    Strikes amplitude ⟨some i, a⟩ (.tone ⟨d, ((440 : Nat) : τ), amplitude, i, .drum⟩)
  | rest {a : NoteLength} {d : τ} : Strikes amplitude ⟨none, a⟩ (.silence d)

namespace Fragment

variable [Scalar σ] [Tuned τ] (setup : Setup τ σ) (previous : Option Voice) (tempo : Nat)

omit [Tuned τ] in
theorem strikes_beatPhrase (amplitude : τ) (b : Percussion.Beat (Instrument σ)) :
    Strikes amplitude b (beatPhrase amplitude tempo b) := by
  obtain ⟨drum, a⟩ := b
  cases drum with
  | some i => exact .tone
  | none => exact .rest

theorem sings_notePhrase (amplitude : τ) (i : Instrument σ) (n : Melody.Note) :
    Sings amplitude i n (notePhrase amplitude tempo i n) := by
  obtain ⟨pitch, a⟩ := n
  cases pitch with
  | some p => exact .tone
  | none => exact .rest

theorem isPercussion_iff (text : List Char) :
    (ofText text).isPercussion ↔ .percussion ∈ (Directive.strip text).1 := List.contains_iff_mem

/-- Percussion plays its beats on their instruments. -/
theorem strikes_phrases {text : List Char} (h : .percussion ∈ (Directive.strip text).1) :
    List.Forall₂ (Strikes setup.amplitude)
      (Percussion.play setup.percussion setup.kit (percussionStart previous)
        (Directive.strip text).2).1
      ((ofText text).phrases setup previous tempo) := by
  rw [phrases, if_pos ((isPercussion_iff text).2 h), List.forall₂_map_right_iff]
  exact List.forall₂_same.2 fun b _ => strikes_beatPhrase tempo setup.amplitude b

/-- A melody plays its notes on the instrument of its fragment. -/
theorem sings_phrases {text : List Char} (h : .percussion ∉ (Directive.strip text).1) :
    List.Forall₂ (Sings setup.amplitude ((ofText text).instrument setup.instruments))
      (Melody.play setup.melody (melodyStart previous) (Directive.strip text).2).1
      ((ofText text).phrases setup previous tempo) := by
  rw [phrases, if_neg (fun hp => h ((isPercussion_iff text).1 hp)), List.forall₂_map_right_iff]
  exact List.forall₂_same.2 fun n _ => sings_notePhrase tempo setup.amplitude _ n

end Fragment

/-! ## Submissions -/

namespace Sequencer

variable [Scalar σ] [Tuned τ]

theorem map_warnings_parts (s : Sequencer τ σ) (k tempo : Nat) (texts : List (List Char)) :
    (s.parts k tempo texts).map (·.warnings) = texts.mapIdx fun i text =>
      (Fragment.ofText text).warnings (k + i) s.setup.instruments.length := by
  induction texts generalizing k tempo with
  | nil => rfl
  | cons text texts ih =>
    rw [parts, List.map_cons, ih, List.mapIdx_cons]
    congr 2
    funext i text
    rw [Nat.add_right_comm, Nat.add_assoc]

/-- The warnings of a submission are those about its voices, in order. -/
theorem warnings_of_ok {s : Sequencer τ σ} {texts : List (List Char)} {sub : Submission τ σ}
    (h : (s.submit texts).result = .ok sub) :
    sub.warnings = (texts.mapIdx fun i text =>
      (Fragment.ofText text).warnings i s.setup.instruments.length).flatten := by
  obtain ⟨after, ha, rfl, -⟩ := submit_of_ok h
  show ((after.compose texts).flatMap (·.warnings)) = _
  rw [compose_of_awaitQueue ha texts, List.flatMap_def, compose, map_warnings_parts]
  simp only [Nat.zero_add]

/-- The warnings of a submission are about the numbers for which there is no instrument, by voices
and in the order in which they are asked for. What it adds to the timeline is one entry, in which
each voice is a sequence. A melody plays its notes on the instrument that its fragment chooses last,
or on the first of all, and percussion plays its beats on the instruments of its drums. -/
theorem sound_of_submission :
    (∀ {τ σ : Type} [Scalar τ] [Scalar σ] [Tuned τ] (s : Sequencer τ σ) (texts : List (List Char))
      (sub : Submission τ σ), s.setup.check = .ok () → (s.submit texts).result = .ok sub →
      let available := s.setup.instruments.length
      sub.warnings = (texts.mapIdx fun i text =>
        ((Fragment.requests text).filter (available ≤ ·)).map (⟨i, ·, available⟩)).flatten ∧
      (s.submit texts).sequencer.timeline.entries =
        s.timeline.entries ++ [⟨sub.phrase, sub.start, sub.phrase.duration, none⟩] ∧
      ∃ voices : List (List (Phrase τ σ)),
        sub.phrase = .parallel (voices.map .sequence) ∧ voices.length = texts.length ∧
        ∀ (i : Nat) (text : List Char) (voice : List (Phrase τ σ)), texts[i]? = some text →
          voices[i]? = some voice →
          (.percussion ∈ (Directive.strip text).1 →
            List.Forall₂ (Strikes s.setup.amplitude)
              (Percussion.play s.setup.percussion s.setup.kit
                (Fragment.percussionStart (s.voice? i)) (Directive.strip text).2).1 voice) ∧
          (.percussion ∉ (Directive.strip text).1 →
            ∃ instrument,
              s.setup.instruments[((Fragment.requests text).filter
                (· < available)).getLast?.getD 0]? = some instrument ∧
              List.Forall₂ (Sings s.setup.amplitude instrument)
                (Melody.play s.setup.melody (Fragment.melodyStart (s.voice? i))
                  (Directive.strip text).2).1 voice)) ∧
    (∀ (cs rest : List Char) (n : Nat), Directive.read cs = some (.instrument n, rest) →
      ∃ digits, digits ≠ [] ∧ (∀ c ∈ digits, c.isDigit) ∧
        skipBlanks cs = '@' :: digits ++ rest ∧
        n = if digitsValue digits < 2 ^ 64 then digitsValue digits else 2 ^ 64 - 1) ∧
    ∀ (amplitude : Float) (i : Instrument Float32) (p : Pitch) (a : NoteLength)
      (phrase : Phrase Float Float32), Sings amplitude i ⟨some p, a⟩ phrase →
      Melody.Fits (p.toInt - 45) →
      ∃ d, phrase = .tone ⟨d, 440 * Float.pow 2 (Float.ofInt (p.toInt - 45) / 12), amplitude, i,
        i.envelope⟩ := by
  refine ⟨?_, fun cs rest n => Directive.exists_digits_of_read,
    fun amplitude i p a phrase => Sings.eq_tone⟩
  intro τ σ _ _ _ s texts sub hc h available
  obtain ⟨hinstruments, -⟩ := (Setup.check_eq_ok_iff _).1 hc
  obtain ⟨hphrase, hentries⟩ := phrase_of_ok h
  refine ⟨?_, hphrase ▸ hentries, texts.mapIdx fun i text => (Fragment.ofText text).phrases s.setup
    (s.voice? i) (tempoOf s.setup texts i), ?_, List.length_mapIdx, ?_⟩
  · rw [warnings_of_ok h]
    simp only [Fragment.warnings_eq]
    rfl
  · rw [hphrase, together, map_phrase_compose]
  · intro i text voice htext hvoice
    rw [List.getElem?_mapIdx, htext, Option.map_some] at hvoice
    cases hvoice
    exact ⟨Fragment.strikes_phrases s.setup (s.voice? i) _,
      fun hp => ⟨_, Fragment.getElem?_chosen text hinstruments,
        Fragment.sings_phrases s.setup (s.voice? i) _ hp⟩⟩

section

open scoped Octaves

/-- Two instruments, and a drum with a third one. -/
def ensemble : Setup Rat Rat :=
  { (.default : Setup Rat Rat) with
    kit := [(.literal ['b'], .oscillator .sawtooth)]
    instruments := [.default, .oscillator .triangle] }

/-- Three voices: one that asks for an instrument and then for one that is not there, one that asks
for none, and percussion that asks in vain. -/
def tutti : List (List Char) := ["@1 t90 @5 c", "d r", "@2@drum b"].map String.toList

theorem sound_of_submission_tutti :
    let s : Sequencer Rat Rat := fresh ensemble
    let beats := (Percussion.play ensemble.percussion ensemble.kit .start [' ', 'b']).1
    s.setup.check = .ok () ∧ beats.map (·.drum.map Instrument.toText) = [some "sawtooth"] ∧
      ∃ sub, (s.submit tutti).result = .ok sub ∧ sub.warnings = [⟨0, 5, 2⟩, ⟨2, 2, 2⟩] ∧
        (s.submit tutti).sequencer.timeline.entries =
          [⟨sub.phrase, sub.start, sub.phrase.duration, none⟩] ∧
        ∃ sung rested struck, sub.phrase = .parallel ([sung, rested, struck].map .sequence) ∧
          List.Forall₂ (Sings (1 / 2) (.oscillator .triangle)) [⟨some 36, .quarter⟩] sung ∧
          List.Forall₂ (Strikes (1 / 2)) beats struck ∧
          ∀ (i : Instrument Float32), ∃ d, Fragment.notePhrase 1 90 i ⟨some 36, .quarter⟩ =
            .tone ⟨d, 440 * Float.pow 2 (Float.ofInt (-9) / 12), 1, i, i.envelope⟩ := by
  intro s beats
  have hc : s.setup.check = .ok () := by decide +kernel
  obtain ⟨after, ha⟩ := awaitQueue_of_no_press (s := s) rfl
  obtain ⟨sub, hsub⟩ := submit_of_awaitQueue ha rfl (fun _ => rfl) tutti
  obtain ⟨hwarnings, hentries, voices, hphrase, hlength, hvoices⟩ :=
    sound_of_submission.1 s tutti sub hc hsub
  refine ⟨hc, by decide +kernel, sub, hsub, hwarnings.trans (by decide +kernel), hentries, ?_⟩
  have hfirst : Directive.strip "@1 t90 @5 c".toList =
      ([.instrument 1, .tempo 90, .instrument 5], [' ', 'c']) := by decide +kernel
  have hlast : Directive.strip "@2@drum b".toList = ([.instrument 2, .percussion], [' ', 'b']) := by
    decide +kernel
  match voices, hlength with
  | [sung, rested, struck], _ =>
    obtain ⟨-, hsung⟩ := hvoices 0 _ sung rfl rfl
    obtain ⟨hstruck, -⟩ := hvoices 2 _ struck rfl rfl
    rw [hfirst] at hsung
    rw [hlast] at hstruck
    obtain ⟨i, hi, hsung⟩ := hsung (by decide)
    refine ⟨sung, rested, struck, hphrase, ?_, hstruck (by decide), fun i =>
      sound_of_submission.2.2 1 i 36 .quarter _ (Fragment.sings_notePhrase 90 1 i _) (by decide)⟩
    rw [Fragment.requests, hfirst] at hi
    cases hi
    rwa [show (Melody.play s.setup.melody (Fragment.melodyStart (s.voice? 0)) [' ', 'c']).1 =
      [⟨some 36, .quarter⟩] by decide +kernel] at hsung

end

end Sequencer

end MusicMacro
