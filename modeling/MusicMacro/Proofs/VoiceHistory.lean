import MusicMacro.Proofs.Exact
import MusicMacro.Proofs.Session

/-!
# Histories of voices

A voice stands where the fragments have left it that it was given in the submissions that
succeeded, since the last reset. Nothing else of a session counts: no other voice, no tempo, no
instrument, no failure, and no submission that had no fragment for the voice.

* `stepped` — where one fragment leaves a voice.
* `history`, `own` — the submissions that count, and what one voice was given in them.
* `voice_after_run` — the state of a voice is a fold over what it was given.
-/

namespace MusicMacro.Sequencer

variable {τ σ : Type}

/-! ## Steps -/

/-- The state of a voice after a fragment. Without directives the fragment is percussion, if one of
them says so, and a melody otherwise; it is played from where the voice stands, or from the start
if it has not played. -/
def stepped (setup : Setup τ σ) (previous : Option Voice) (text : List Char) : Voice :=
  if .percussion ∈ (Directive.strip text).1 then
    .percussion (Percussion.play setup.percussion setup.kit
      (previous.elim .start Voice.toPercussion) (Directive.strip text).2).2
  else
    .melody (Melody.play setup.melody
      (previous.elim .start Voice.toMelody) (Directive.strip text).2).2

/-- The state of a voice after some fragments, from none. -/
def steppedAll (setup : Setup τ σ) (texts : List (List Char)) : Option Voice :=
  texts.foldl (fun previous text => some (stepped setup previous text)) none

theorem steppedAll_append (setup : Setup τ σ) (texts : List (List Char)) (text : List Char) :
    steppedAll setup (texts ++ [text]) = some (stepped setup (steppedAll setup texts) text) := by
  rw [steppedAll, List.foldl_append]
  rfl

theorem voice_ofText (setup : Setup τ σ) (previous : Option Voice) (text : List Char) :
    (Fragment.ofText text).voice setup previous = stepped setup previous text := by
  unfold Fragment.voice Fragment.isPercussion stepped
  show (if (Directive.strip text).1.contains .percussion then _ else _) = _
  by_cases h : .percussion ∈ (Directive.strip text).1
  · rw [if_pos h, if_pos (List.contains_iff_mem.2 h)]
    rfl
  · rw [if_neg h, if_neg (fun hc => h (List.contains_iff_mem.1 hc))]
    rfl

/-- What a fragment makes of a voice depends on: whether it is percussion, and the music. -/
def essence (text : List Char) : Bool × List Char :=
  (decide (.percussion ∈ (Directive.strip text).1), (Directive.strip text).2)

/-- Two setups read music alike: with the same tokens, and the same drums behind them. -/
structure ReadAlike (setup setup' : Setup τ σ) : Prop where
  melody : setup'.melody = setup.melody
  percussion : setup'.percussion = setup.percussion
  kit : setup'.kit = setup.kit

theorem stepped_congr {setup setup' : Setup τ σ} (ha : ReadAlike setup setup')
    {text text' : List Char} (he : essence text' = essence text) (previous : Option Voice) :
    stepped setup' previous text' = stepped setup previous text := by
  obtain ⟨hpercussion, hmusic⟩ := Prod.mk.inj he
  unfold stepped
  rw [ha.melody, ha.percussion, ha.kit, hmusic]
  by_cases h : .percussion ∈ (Directive.strip text).1
  · rw [if_pos h, if_pos ((decide_eq_decide.1 hpercussion).2 h)]
  · rw [if_neg h, if_neg (fun h' => h ((decide_eq_decide.1 hpercussion).1 h'))]

theorem steppedAll_congr {setup setup' : Setup τ σ} (ha : ReadAlike setup setup')
    {texts texts' : List (List Char)} (he : texts'.map essence = texts.map essence) :
    steppedAll setup' texts' = steppedAll setup texts := by
  unfold steppedAll
  generalize (none : Option Voice) = previous
  induction texts generalizing texts' previous with
  | nil =>
    rw [List.map_nil, List.map_eq_nil_iff] at he
    rw [he]
    rfl
  | cons text texts ih =>
    cases texts' with
    | nil => cases he
    | cons text' texts' =>
      obtain ⟨hhead, htail⟩ := List.cons.inj he
      rw [List.foldl_cons, List.foldl_cons, stepped_congr ha hhead]
      exact ih htail _

/-! ## Histories -/

section

variable [Scalar τ] [Scalar σ] [Tuned τ]

/-- The submissions that have succeeded since the last reset, after one more move. -/
def record (s : Sequencer τ σ) (past : List (List (List Char))) : Move τ → List (List (List Char))
  | .submit texts =>
    match (s.submit texts).result with
    | .ok _ => past ++ [texts]
    | .error _ => past
  | .reset => []
  | _ => past

/-- The submissions that have succeeded since the last reset, after a session. -/
def history (s : Sequencer τ σ) (past : List (List (List Char))) :
    List (Move τ) → List (List (List Char))
  | [] => past
  | m :: moves => (s.move m).history (s.record past m) moves

omit [Scalar τ] [Scalar σ] [Tuned τ] in
/-- What a voice was given in some submissions. -/
def own (i : Nat) (past : List (List (List Char))) : List (List Char) := past.filterMap (·[i]?)

/-! ## What a submission does to a voice -/

/-- The parts of a submission hold the next states of their voices. -/
theorem voice_parts (s : Sequencer τ σ) (texts : List (List Char)) (k tempo i : Nat) :
    ((s.parts k tempo texts).map (·.voice))[i]? =
      texts[i]?.map (stepped s.setup (s.voice? (k + i))) := by
  induction texts generalizing k tempo i with
  | nil => simp [parts]
  | cons text texts ih =>
    rw [parts, List.map_cons]
    cases i with
    | zero =>
      rw [List.getElem?_cons_zero, List.getElem?_cons_zero, Option.map_some]
      exact congrArg some (voice_ofText _ _ _)
    | succ i =>
      have hi : k + 1 + i = k + (i + 1) := by omega
      rw [List.getElem?_cons_succ, List.getElem?_cons_succ, ih, hi]

omit [Scalar τ] [Scalar σ] [Tuned τ] in
/-- The first voices are replaced and the others are kept. -/
theorem join_updated (voices : List (Option Voice)) (next : List Voice) (i : Nat) :
    ((updated voices next)[i]?).join = next[i]?.or (voices[i]?).join := by
  rw [updated, List.getElem?_append, List.length_map]
  by_cases hi : i < next.length
  · rw [if_pos hi, List.getElem?_map, List.getElem?_eq_getElem hi]
    rfl
  · rw [if_neg hi, List.getElem?_drop, List.getElem?_eq_none (Nat.le_of_not_lt hi),
      show next.length + (i - next.length) = i by omega]
    rfl

theorem voice?_submit_ok {s : Sequencer τ σ} {texts : List (List Char)} {sub : Submission τ σ}
    (h : (s.submit texts).result = .ok sub) (i : Nat) :
    (s.submit texts).sequencer.voice? i =
      (texts[i]?.map (stepped s.setup (s.voice? i))).or (s.voice? i) := by
  obtain ⟨after, ha, -, heq⟩ := submit_of_ok h
  have hafter := eq_of_awaitQueue ha
  have hvoice : ∀ k, after.voice? k = s.voice? k := fun k => by rw [hafter]; rfl
  have hsetup : after.setup = s.setup := by rw [hafter]
  rw [heq]
  show ((updated after.voices _)[i]?).join = _
  rw [join_updated, compose, voice_parts, hsetup, Nat.zero_add, hvoice]
  exact congrArg _ (hvoice i)

theorem voice?_submit_error {s : Sequencer τ σ} {texts : List (List Char)} {e : SubmitError τ}
    (h : (s.submit texts).result = .error e) (i : Nat) :
    (s.submit texts).sequencer.voice? i = s.voice? i := by
  rw [voice?, voice?, voices_of_error h]

omit [Scalar σ] [Tuned τ] in
theorem voice?_stop (s : Sequencer τ σ) (i : Nat) : s.stop.voice? i = s.voice? i := by
  unfold stop
  split <;> rfl

/-! ## Every voice follows its history -/

/-- Every voice stands where the fragments have left it that it was given. -/
def Follows (s : Sequencer τ σ) (past : List (List (List Char))) : Prop :=
  ∀ i, s.voice? i = steppedAll s.setup (own i past)

omit [Scalar τ] [Scalar σ] [Tuned τ] in
theorem own_append (i : Nat) (past : List (List (List Char))) (texts : List (List Char)) :
    own i (past ++ [texts]) = own i past ++ texts[i]?.toList := by
  rw [own, List.filterMap_append]
  cases h : texts[i]? with
  | none => simp [own, h]
  | some text => simp [own, h]

theorem Follows.submit {s : Sequencer τ σ} {past : List (List (List Char))} (hs : s.Follows past)
    (texts : List (List Char)) :
    (s.submit texts).sequencer.Follows (s.record past (.submit texts)) := by
  intro i
  rw [setup_submit, record]
  cases hr : (s.submit texts).result with
  | error e => rw [voice?_submit_error hr, hs i]
  | ok sub =>
    rw [voice?_submit_ok hr, hs i]
    show _ = steppedAll s.setup (own i (past ++ [texts]))
    rw [own_append]
    cases texts[i]? with
    | none => rw [Option.toList_none, List.append_nil]; rfl
    | some text => rw [Option.toList_some, steppedAll_append]; rfl

theorem Follows.move {s : Sequencer τ σ} {past : List (List (List Char))} (hs : s.Follows past)
    (m : Move τ) : (s.move m).Follows (s.record past m) := by
  cases m with
  | submit texts => exact hs.submit texts
  | stop =>
    intro i
    show s.stop.voice? i = steppedAll s.stop.setup (own i past)
    rw [setup_stop, voice?_stop, hs i]
  | reset => exact fun i => rfl
  | _ => exact hs

theorem Follows.run {s : Sequencer τ σ} {past : List (List (List Char))} (hs : s.Follows past)
    (moves : List (Move τ)) : (s.run moves).Follows (s.history past moves) := by
  induction moves generalizing s past with
  | nil => exact hs
  | cons m moves ih => exact ih (hs.move m)

/-- After every session the state of a voice is the fold of `stepped` over the fragments that it was
given in the submissions that have succeeded since the last reset. So two sessions, also with
setups that differ in more than what they read, leave a voice in the same state if it was given the
same music in both, as percussion or as a melody alike. -/
theorem voice_after_run {setup : Setup τ σ} {s : Sequencer τ σ} (h : create setup = .ok s)
    (moves : List (Move τ)) (i : Nat) :
    (s.run moves).voice? i =
      (own i (s.history [] moves)).foldl
        (fun previous text => some (stepped setup previous text)) none ∧
    ∀ {setup' : Setup τ σ} {s' : Sequencer τ σ} (moves' : List (Move τ)),
      create setup' = .ok s' → ReadAlike setup setup' →
      (own i (s'.history [] moves')).map essence = (own i (s.history [] moves)).map essence →
      (s'.run moves').voice? i = (s.run moves).voice? i := by
  have hfold : ∀ {setup : Setup τ σ} {s : Sequencer τ σ} (moves : List (Move τ)),
      create setup = .ok s →
      (s.run moves).voice? i = steppedAll setup (own i (s.history [] moves)) := by
    intro setup s moves h
    obtain ⟨-, rfl⟩ := create_eq_ok_iff.1 h
    have hstart : (fresh setup).Follows [] := fun i => rfl
    rw [hstart.run moves i, setup_run]
    rfl
  refine ⟨hfold moves h, fun moves' h' ha he => ?_⟩
  rw [hfold moves h, hfold moves' h']
  exact steppedAll_congr ha he

end

section

open scoped Octaves

/-- A voice that changes to percussion, beside one that only the first submission has, and a
submission that the device does not take. -/
def switched : List (Move Rat) :=
  [.submit [['<', 'a'], ['l', '8', '>']], .refuse (some "busy"), .submit [['>'], ['>']],
    .refuse none, .submit [['@', 'd', 'r', 'u', 'm', 'l', '2']]]

theorem voice_after_run_switched :
    let s : Sequencer Rat Rat := fresh .default
    create .default = .ok s ∧
      own 0 (s.history [] switched) = [['<', 'a'], ['@', 'd', 'r', 'u', 'm', 'l', '2']] ∧
      (s.run switched).voice? 0 = some (.percussion ⟨⟨1, 2⟩, some 3⟩) ∧
      (s.run switched).voice? 1 = some (.melody ⟨⟨1, 8⟩, 5⟩) := by
  intro s
  have hcreate : create .default = .ok s := create_eq_ok_iff.2 ⟨by decide +kernel, rfl⟩
  have hown : ∀ i, own i (s.history [] switched) =
      [[['<', 'a'], ['l', '8', '>']], [['@', 'd', 'r', 'u', 'm', 'l', '2']]].filterMap (·[i]?) := by
    intro i
    have hhistory : s.history [] switched =
        [[['<', 'a'], ['l', '8', '>']], [['@', 'd', 'r', 'u', 'm', 'l', '2']]] := by
      decide +kernel
    rw [hhistory]
    rfl
  refine ⟨hcreate, hown 0, ?_, ?_⟩
  · rw [(voice_after_run hcreate switched 0).1, hown]
    decide +kernel
  · rw [(voice_after_run hcreate switched 1).1, hown]
    decide +kernel

end

end MusicMacro.Sequencer
