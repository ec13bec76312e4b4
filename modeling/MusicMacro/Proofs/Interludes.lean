import MusicMacro.Proofs.Composition
import MusicMacro.Proofs.Melody.Pitches
import MusicMacro.Proofs.VoiceHistory

/-!
# Percussion between melodies

A voice may play percussion between its melodies. Its melodies go on as if there had been none: each
of them starts in the octave in which the melody before it ended, and so its pitches are those that
it would have without the percussion. The default length goes through melodies and percussion alike.

* `Passage` — what a submission that has succeeded was to one voice.
* `passages` — those of a session since the last reset.
* `Linked` — each passage starts where the one before it has left the voice.
* `Linked.pitches_eq`, `Linked.octave_eq`, `Linked.length_eq` — what that means for the pitches,
  the octave and the default length.
* `melodies_survive_percussion` — all of it, for every session.
-/

namespace MusicMacro.Sequencer

variable {τ σ : Type}

/-! ## Voices that go on -/

/-- The octave in which a voice goes on with a melody. -/
def octaveOf (v : Option Voice) : Int32 := (Fragment.melodyStart v).octave

/-- The default length with which a voice goes on. -/
def lengthOf (v : Option Voice) : NoteLength := v.elim .quarter Voice.length

/-! ## Passages -/

/-- What a voice was given in a submission: the text, the states of the voice before and after, and
what has been scheduled for it. -/
structure Passage (τ σ : Type) where
  text : List Char
  found : Option Voice
  left : Option Voice
  line : Option (Phrase τ σ)

/-- Whether a fragment is a melody. -/
def isMelody (text : List Char) : Bool := !(Fragment.ofText text).isPercussion

/-- The fragments that are melodies. -/
def melodies (texts : List (List Char)) : List (List Char) := texts.filter isMelody

namespace Passage

variable (setup : Setup τ σ) (p : Passage τ σ)

/-- The text after the directives. -/
def music : List Char := (Fragment.ofText p.text).music

/-- The passage as a melody: its notes, and where it ends. -/
def melody : List Melody.Note × Melody.State :=
  Melody.play setup.melody (Fragment.melodyStart p.found) p.music

/-- The passage as percussion: its beats, and where it ends. -/
def percussion : List (Percussion.Beat (Instrument σ)) × Percussion.State :=
  Percussion.play setup.percussion setup.kit (Fragment.percussionStart p.found) p.music

/-- The pitches of the notes and rests of a melody. -/
def pitches : List (Option Pitch) := (p.melody setup).1.map (·.pitch)

/-- The default length with which the passage starts. -/
def startLength : NoteLength :=
  if isMelody p.text then (Fragment.melodyStart p.found).length
  else (Fragment.percussionStart p.found).length

theorem startLength_eq (p : Passage τ σ) : p.startLength = lengthOf p.found := by
  unfold startLength
  rcases p.found with - | v
  · split <;> rfl
  · cases v <;> split <;> rfl

/-- The default length with which the passage ends. -/
def endLength : NoteLength :=
  if isMelody p.text then (p.melody setup).2.length else (p.percussion setup).2.length

/-- The passage was played from where the voice stood, and the voice stands where it ended. -/
structure Played [Scalar τ] [Scalar σ] [Tuned τ] : Prop where
  melody : isMelody p.text = true →
    p.left = some (.melody (p.melody setup).2) ∧ ∃ tempo instrument,
      p.line = some (.sequence
        ((p.melody setup).1.map (Fragment.notePhrase setup.amplitude tempo instrument)))
  percussion : isMelody p.text = false →
    p.left = some (.percussion (p.percussion setup).2) ∧ ∃ tempo,
      p.line = some (.sequence
        ((p.percussion setup).1.map (Fragment.beatPhrase setup.amplitude tempo)))

end Passage

/-- The phrase of one voice in that of a submission. -/
def lineOf : Phrase τ σ → Nat → Option (Phrase τ σ)
  | .parallel voices, i => voices[i]?
  | _, _ => none

variable [Scalar τ] [Scalar σ] [Tuned τ]

/-- The passage of a voice in a submission, if that succeeds and has a fragment for the voice. -/
def passage? (s : Sequencer τ σ) (i : Nat) (texts : List (List Char)) : Option (Passage τ σ) :=
  match (s.submit texts).result, texts[i]? with
  | .ok sub, some text =>
    some ⟨text, s.voice? i, (s.submit texts).sequencer.voice? i, lineOf sub.phrase i⟩
  | _, _ => none

theorem passage?_of_error {s : Sequencer τ σ} {texts : List (List Char)} {e : SubmitError τ}
    (h : (s.submit texts).result = .error e) (i : Nat) : s.passage? i texts = none := by
  unfold passage?
  rw [h]

theorem passage?_of_ok {s : Sequencer τ σ} {texts : List (List Char)} {sub : Submission τ σ}
    (h : (s.submit texts).result = .ok sub) (i : Nat) :
    s.passage? i texts = texts[i]?.map fun text =>
      ⟨text, s.voice? i, (s.submit texts).sequencer.voice? i, lineOf sub.phrase i⟩ := by
  unfold passage?
  rw [h]
  cases texts[i]? <;> rfl

/-- The passages of a voice since the last reset, after one more move. -/
def passagesAfter (s : Sequencer τ σ) (i : Nat) (past : List (Passage τ σ)) :
    Move τ → List (Passage τ σ)
  | .submit texts => past ++ (s.passage? i texts).toList
  | .reset => []
  | _ => past

/-- The passages of a voice since the last reset, after a session. -/
def passages (s : Sequencer τ σ) (i : Nat) (past : List (Passage τ σ)) :
    List (Move τ) → List (Passage τ σ)
  | [] => past
  | m :: moves => (s.move m).passages i (s.passagesAfter i past m) moves

/-- The passages of a voice are the fragments that it was given. -/
theorem map_text_passages (i : Nat) (s : Sequencer τ σ) (moves : List (Move τ))
    {past : List (Passage τ σ)} {texts : List (List (List Char))}
    (h : past.map (·.text) = own i texts) :
    (s.passages i past moves).map (·.text) = own i (s.history texts moves) := by
  induction moves generalizing s past texts with
  | nil => exact h
  | cons m moves ih =>
    apply ih (s.move m)
    cases m with
    | submit fragments =>
      rw [passagesAfter, record]
      cases hr : (s.submit fragments).result with
      | error e => rw [passage?_of_error hr, Option.toList_none, List.append_nil, h]
      | ok sub =>
        rw [passage?_of_ok hr, own_append, ← h, List.map_append]
        cases fragments[i]? <;> rfl
    | reset => rfl
    | _ => exact h

/-! ## Each passage starts where the one before it has ended -/

/-- The passages lead from one state of a voice to another. -/
inductive Linked (setup : Setup τ σ) : Option Voice → List (Passage τ σ) → Option Voice → Prop
  | nil {v : Option Voice} : Linked setup v [] v
  | cons {p : Passage τ σ} {ps : List (Passage τ σ)} {v : Option Voice} : p.Played setup →
    Linked setup p.left ps v → Linked setup p.found (p :: ps) v

namespace Linked

variable {setup : Setup τ σ} {u v w : Option Voice} {ps qs : List (Passage τ σ)}

theorem append (h : Linked setup u ps v) (h' : Linked setup v qs w) :
    Linked setup u (ps ++ qs) w := by
  induction h with
  | nil => exact h'
  | cons hp _ ih => exact .cons hp (ih h')

/-- What leads to a state in two steps leads to a state in between. -/
theorem split (h : Linked setup u (ps ++ qs) w) :
    ∃ v, Linked setup u ps v ∧ Linked setup v qs w := by
  induction ps generalizing u with
  | nil => exact ⟨u, .nil, h⟩
  | cons p ps ih =>
    cases h with
    | cons hp hrest =>
      obtain ⟨v, hfirst, hsecond⟩ := ih hrest
      exact ⟨v, .cons hp hfirst, hsecond⟩

end Linked

/-- The fragment of a voice is played from where the voice stands. -/
theorem played_of_ok {s : Sequencer τ σ} {texts : List (List Char)} {sub : Submission τ σ}
    (h : (s.submit texts).result = .ok sub) {i : Nat} {text : List Char}
    (ht : texts[i]? = some text) :
    Passage.Played s.setup
      ⟨text, s.voice? i, (s.submit texts).sequencer.voice? i, lineOf sub.phrase i⟩ := by
  have hleft := voice?_submit_ok h i
  have hline : lineOf sub.phrase i = some ((Fragment.ofText text).phrase s.setup (s.voice? i)
      (tempoOf s.setup texts i)) := by
    rw [(phrase_of_ok h).1, together, lineOf, map_phrase_compose, List.getElem?_map,
      List.getElem?_mapIdx, ht]
    rfl
  rw [ht, Option.map_some, Option.some_or, ← voice_ofText] at hleft
  constructor
  · intro hm
    have hkind : (Fragment.ofText text).isPercussion = false := by simpa [isMelody] using hm
    refine ⟨hleft.trans ?_, tempoOf s.setup texts i,
      (Fragment.ofText text).instrument s.setup.instruments, hline.trans ?_⟩
    · rw [Fragment.voice, hkind]
      rfl
    · rw [Fragment.phrase, hkind]
      rfl
  · intro hm
    have hkind : (Fragment.ofText text).isPercussion = true := by simpa [isMelody] using hm
    refine ⟨hleft.trans ?_, tempoOf s.setup texts i, hline.trans ?_⟩
    · rw [Fragment.voice, hkind]
      rfl
    · rw [Fragment.phrase, hkind]
      rfl

/-- One move keeps the passages of a voice linked. -/
theorem linked_move {s : Sequencer τ σ} {i : Nat} {past : List (Passage τ σ)}
    (h : Linked s.setup none past (s.voice? i)) (m : Move τ) :
    Linked (s.move m).setup none (s.passagesAfter i past m) ((s.move m).voice? i) := by
  rw [setup_move]
  cases m with
  | submit texts =>
    rw [passagesAfter]
    show Linked s.setup none _ ((s.submit texts).sequencer.voice? i)
    cases hr : (s.submit texts).result with
    | error e =>
      rw [passage?_of_error hr, voice?_submit_error hr, Option.toList_none, List.append_nil]
      exact h
    | ok sub =>
      rw [passage?_of_ok hr]
      cases ht : texts[i]? with
      | none =>
        rw [voice?_submit_ok hr, ht, Option.map_none, Option.toList_none, List.append_nil]
        exact h
      | some text => exact h.append (.cons (played_of_ok hr ht) .nil)
  | stop =>
    show Linked s.setup none past (s.stop.voice? i)
    rw [voice?_stop]
    exact h
  | reset => exact .nil
  | _ => exact h

theorem linked_run {s : Sequencer τ σ} {i : Nat} {past : List (Passage τ σ)}
    (h : Linked s.setup none past (s.voice? i)) (moves : List (Move τ)) :
    Linked s.setup none (s.passages i past moves) ((s.run moves).voice? i) := by
  induction moves generalizing s past with
  | nil => exact h
  | cons m moves ih =>
    have hrest := ih (linked_move h m)
    rw [setup_move] at hrest
    exact hrest

/-! ## What goes from passage to passage -/

namespace Passage

variable {setup : Setup τ σ} {p : Passage τ σ}

theorem Played.octaveOf_left (h : p.Played setup) :
    octaveOf p.left = if isMelody p.text then (p.melody setup).2.octave else octaveOf p.found := by
  cases hm : isMelody p.text with
  | true =>
    rw [(h.melody hm).1]
    rfl
  | false =>
    rw [(h.percussion hm).1]
    -- percussion keeps the octave, and a voice that has none of its own starts a melody in octave 4
    show ((Percussion.final _ _).octave.getD Melody.startOctave) = octaveOf p.found
    rw [Percussion.octave_final]
    rcases hfound : p.found with - | v
    · rfl
    · cases v <;> rfl

theorem Played.lengthOf_left (h : p.Played setup) : lengthOf p.left = p.endLength setup := by
  unfold endLength
  cases hm : isMelody p.text with
  | true =>
    rw [(h.melody hm).1]
    rfl
  | false =>
    rw [(h.percussion hm).1]
    rfl

end Passage

/-- The pitches of some melodies in turn, the first of them in an octave. -/
def scales (setup : Setup τ σ) (octave : Int32) : List (List Char) → List (List (Option Pitch))
  | [] => []
  | text :: texts =>
    let commands := (Fragment.ofText text).melodyCommands setup
    Melody.pitches octave commands :: scales setup (Melody.octaveAfter octave commands) texts

/-- The passages that are melodies. -/
def melodic (ps : List (Passage τ σ)) : List (Passage τ σ) := ps.filter (isMelody ·.text)

omit [Scalar τ] [Scalar σ] [Tuned τ] in
theorem melodic_cons (p : Passage τ σ) (ps : List (Passage τ σ)) :
    melodic (p :: ps) = if isMelody p.text then p :: melodic ps else melodic ps := List.filter_cons

theorem melodies_cons (text : List Char) (texts : List (List Char)) :
    melodies (text :: texts) = if isMelody text then text :: melodies texts else melodies texts :=
  List.filter_cons

namespace Linked

variable {setup : Setup τ σ} {u v : Option Voice} {ps : List (Passage τ σ)}

/-- A voice goes on in the octave in which its last melody has ended. -/
theorem octave_eq (h : Linked setup u ps v) :
    octaveOf v =
      ((melodic ps).getLast?.map fun p => (p.melody setup).2.octave).getD (octaveOf u) := by
  induction h with
  | nil => rfl
  | @cons p ps v hp _ ih =>
    rw [ih, hp.octaveOf_left, melodic_cons]
    by_cases hm : isMelody p.text = true
    · rw [if_pos hm, if_pos hm, List.getLast?_cons]
      cases (melodic ps).getLast? <;> rfl
    · rw [if_neg hm, if_neg hm]

/-- A voice goes on with the default length with which its last passage has ended. -/
theorem length_eq (h : Linked setup u ps v) :
    lengthOf v = (ps.getLast?.map (·.endLength setup)).getD (lengthOf u) := by
  induction h with
  | nil => rfl
  | @cons p ps v hp _ ih =>
    rw [ih, hp.lengthOf_left, List.getLast?_cons]
    cases ps.getLast? <;> rfl

/-- The melodies have the pitches that they would have without percussion. -/
theorem pitches_eq (h : Linked setup u ps v) :
    (melodic ps).map (·.pitches setup) =
      scales setup (octaveOf u) (melodies (ps.map (·.text))) := by
  induction h with
  | nil => rfl
  | @cons p ps v hp _ ih =>
    -- a melody moves the octave on as its commands do, and percussion leaves it alone
    have hleft := hp.octaveOf_left
    rw [melodic_cons, List.map_cons, melodies_cons]
    by_cases hm : isMelody p.text = true
    · rw [if_pos hm] at hleft
      rw [if_pos hm, if_pos hm, List.map_cons, scales, ih, hleft]
      have hoctave := Melody.octave_final (Fragment.melodyStart p.found)
        ((Fragment.ofText p.text).melodyCommands setup)
      have hpitches := Melody.map_pitch_notes (Fragment.melodyStart p.found)
        ((Fragment.ofText p.text).melodyCommands setup)
      exact congrArg₂ _ hpitches (congrArg (scales setup · _) hoctave)
    · rw [if_neg hm] at hleft
      rw [if_neg hm, if_neg hm, ih, hleft]

end Linked

/-- In every session, the melodies of a voice since the last reset have pitches that do not depend
on the percussion between them. Every passage is played from where the voice stands; a melody starts
in the octave in which the melody before it ended, or in octave 4 if there was none, and every
passage starts with the default length with which the passage before it ended, or with quarter
notes. -/
theorem melodies_survive_percussion {setup : Setup τ σ} {s : Sequencer τ σ}
    (h : create setup = .ok s) (i : Nat) (moves : List (Move τ)) :
    (s.passages i [] moves).map (·.text) = own i (s.history [] moves) ∧
    (∀ moves', melodies (own i (s.history [] moves')) = melodies (own i (s.history [] moves)) →
      (melodic (s.passages i [] moves')).map (·.pitches setup) =
        (melodic (s.passages i [] moves)).map (·.pitches setup)) ∧
    ∀ before p after, s.passages i [] moves = before ++ p :: after →
      p.Played setup ∧
      (isMelody p.text = true → (Fragment.melodyStart p.found).octave =
        ((melodic before).getLast?.map fun q => (q.melody setup).2.octave).getD 4) ∧
      p.startLength = (before.getLast?.map (·.endLength setup)).getD .quarter := by
  obtain ⟨-, rfl⟩ := create_eq_ok_iff.1 h
  have htext : ∀ moves, ((fresh setup).passages i [] moves).map (·.text) =
      own i ((fresh setup).history [] moves) := fun moves => map_text_passages i _ moves rfl
  have hstart : Linked (fresh setup).setup none [] ((fresh setup).voice? i) := .nil
  have hlinked : ∀ moves, Linked setup none ((fresh setup).passages i [] moves)
      (((fresh setup).run moves).voice? i) := fun moves => linked_run hstart moves
  refine ⟨htext moves, fun moves' hsame => ?_, fun before p after heq => ?_⟩
  · rw [(hlinked moves').pitches_eq, (hlinked moves).pitches_eq, htext, htext, hsame]
  · have hall := hlinked moves
    rw [heq] at hall
    obtain ⟨found, hbefore, hrest⟩ := hall.split
    cases hrest with
    | cons hp _ =>
      refine ⟨hp, fun _ => hbefore.octave_eq, ?_⟩
      rw [p.startLength_eq]
      exact hbefore.length_eq

section

open scoped Octaves

/-- A melody that ends an octave higher, percussion that changes the default length, and a melody
again. -/
def interlude : List (Move Rat) :=
  [.submit [['>', 'c']], .submit [['@', 'd', 'r', 'u', 'm', 'l', '8', '>']], .submit [['c', 'r']]]

/-- Without the percussion. -/
def withoutInterlude : List (Move Rat) := [.submit [['>', 'c']], .submit [['c', 'r']]]

theorem melodies_survive_percussion_interlude :
    let s : Sequencer Rat Rat := fresh .default
    create .default = .ok s ∧
      melodies (own 0 (s.history [] withoutInterlude)) =
        melodies (own 0 (s.history [] interlude)) ∧
      (melodic (s.passages 0 [] interlude)).map (·.pitches s.setup) =
        [[some 48], [some 48, none]] ∧
      (melodic (s.passages 0 [] withoutInterlude)).map (·.pitches s.setup) =
        [[some 48], [some 48, none]] := by
  intro s
  have hcreate : create .default = .ok s := create_eq_ok_iff.2 ⟨by decide +kernel, rfl⟩
  have hsame : melodies (own 0 (s.history [] withoutInterlude)) =
      melodies (own 0 (s.history [] interlude)) := by decide +kernel
  have hpitches : (melodic (s.passages 0 [] interlude)).map (·.pitches s.setup) =
      [[some 48], [some 48, none]] := by decide +kernel
  refine ⟨hcreate, hsame, hpitches, ?_⟩
  rw [← hpitches]
  exact (melodies_survive_percussion hcreate 0 interlude).2.1 withoutInterlude hsame

end

end MusicMacro.Sequencer
