import MusicMacro.Percussion.Performance
import MusicMacro.Proofs.Percussion.Grammar

/-!
# Reading percussion

Percussion is read as it was written, with any kit whose tokens can be told apart: the drum of a
stroke is the one whose token was written, its mark is read between the token and the length, and no
command takes anything of the next one. What is read is then performed as a reference says.

* `Kit.read_append`, `Kit.read_eq_none` — a drum is read where its token is written, and nowhere
  else.
* `readCommand_append`, `readCommand_eq_none` — so is a command.
* `commands_of_score` — the commands of a piece that is written.
* `interpret`, `perform_eq_interpret` — what commands mean.
* `play_written` — both, in either dialect.
-/

namespace MusicMacro

/-- One spelling is read where it stands, if it is not empty. -/
theorem Pattern.read_literal_eq (t cs : List Char) :
    (literal t).read cs =
      if t ≠ [] ∧ t <+: skipBlanks cs then some (t, (skipBlanks cs).drop t.length) else none := by
  split
  · next h =>
    obtain ⟨hne, hprefix⟩ := h
    have heq := (List.prefix_iff_eq_append.1 hprefix).symm
    exact read_eq_some_iff.2 (match_literal_iff.2 ⟨rfl, hne, heq⟩)
  · next h =>
    rw [Option.eq_none_iff_forall_not_mem]
    rintro ⟨m, rest⟩ hr
    obtain ⟨-, hne, heq⟩ := match_literal_iff.1 (read_eq_some_iff.1 hr)
    exact h ⟨hne, rest, heq.symm⟩

/-- One spelling is read nowhere but where it stands. -/
theorem Pattern.read_literal_eq_none {t cs : List Char} (h : ¬t <+: skipBlanks cs) :
    (literal t).read cs = none := by
  rw [read_literal_eq, if_neg fun hstands => h hstands.2]

namespace Percussion

variable {δ : Type} {tokens : Tokens} {drums : List (List Char × δ)}

/-! ## Drums -/

namespace Kit

/-- The drum whose token is written is read. -/
theorem read_append (hk : Distinct tokens drums) {p : Pattern} {drum : δ}
    (he : (p, drum) ∈ ofTokens drums) {text : List Char} (hs : p.Spelt text) (rest : List Char) :
    (ofTokens drums).read (text ++ rest) = some (drum, rest) := by
  obtain ⟨m, hm⟩ := Pattern.read_append (hk.plain he) hs rest
  have hread : p.read.map (fun _ => drum) (text ++ rest) = some (drum, rest) :=
    Scanner.map_eq_some.2 ⟨m, hm, rfl⟩
  refine Scanner.firstOf_eq_some (List.mem_map.2 ⟨(p, drum), he, rfl⟩) hread fun r hr => ?_
  obtain ⟨⟨p', drum'⟩, he', rfl⟩ := List.mem_map.1 hr
  obtain ⟨token, hd, rfl⟩ := mem_ofTokens.1 he
  obtain ⟨token', hd', rfl⟩ := mem_ofTokens.1 he'
  by_cases heq : (token', drum') = (token, drum)
  · cases heq
    exact .inl hread
  · -- neither of the two tokens is the beginning of the other, so only one of them stands there
    obtain ⟨blanks, spelling, hb, hmem, rfl⟩ := hs
    rw [List.mem_singleton.1 hmem]
    refine .inr (Scanner.map_of_none (Pattern.read_literal_eq_none fun hpre => heq ?_))
    rw [List.append_assoc, skipBlanks_append hb, hk.skipBlanks_append hd] at hpre
    exact hk.eq_of_prefix hd' hd
      (List.prefix_or_prefix_of_prefix hpre (List.prefix_append token rest))

/-- No drum is read where no token of one can begin. -/
theorem read_eq_none (hk : Distinct tokens drums) {cs : List Char}
    (h : Next (fun c => ∀ entry ∈ ofTokens drums, c ∉ entry.1.heads) cs) :
    (ofTokens drums).read cs = none := by
  refine Scanner.firstOf_eq_none fun r hr => ?_
  obtain ⟨⟨p, drum⟩, he, rfl⟩ := List.mem_map.1 hr
  have hnone : p.read cs = none :=
    Pattern.read_eq_none (hk.plain he) (h.mono fun c hc => hc (p, drum) he)
  exact Scanner.map_of_none hnone

end Kit

namespace Tokens

/-! ## Marks -/

theorem readMark_eq (tokens : Tokens) (cs : List Char) :
    tokens.readMark cs =
      match (tokens.pattern .unscale).read cs with
      | some (_, rest) => (true, rest)
      | none => (false, cs) := by
  rw [readMark, pattern]
  cases tokens.unscale with
  | none =>
    have hnone : (Pattern.anyOf []).read cs = none :=
      Pattern.read_eq_none (by decide) fun _ _ => List.not_mem_nil
    rw [Option.getD_none, hnone]
    rfl
  | some m => rfl

section

variable (ha : Apart tokens.pattern)

include ha

/-- A mark that is written is read, and none is read where none is written. -/
theorem readMark_append {unscaled : Bool} {text rest : List Char}
    (h : tokens.Marked unscaled text) (hr : Next (· ∉ (tokens.pattern .unscale).heads) rest) :
    tokens.readMark (text ++ rest) = (unscaled, rest) := by
  rw [readMark_eq]
  cases unscaled with
  | true =>
    obtain ⟨m, hm⟩ := Pattern.read_append (ha.plain .unscale) h rest
    rw [hm]
  | false =>
    rw [show text = [] from h, List.nil_append, Pattern.read_eq_none (ha.plain .unscale) hr]

/-! ## Commands -/

theorem readStroke_append (hk : Kit.Distinct tokens drums) {p : Pattern} {drum : δ}
    {unscaled : Bool} {t : LengthText} {a b c rest : List Char}
    (he : (p, drum) ∈ Kit.ofTokens drums) (hs : p.Spelt a) (hb : tokens.Marked unscaled b)
    (hc : tokens.length.Written t c) (hr : Next (fun c => ¬tokens.Continues c) rest) :
    tokens.readStroke (Kit.ofTokens drums) (a ++ (b ++ c) ++ rest) =
      some (.stroke drum unscaled t, rest) := by
  -- a length text begins with no mark, and neither does what comes after it
  have hn : Next (· ∉ (tokens.pattern .unscale).heads) (c ++ rest) := by
    refine hc.next (apart_length ha) ?_ (hr.mono fun d hd hx => hd (.inr hx))
    rintro d (hd | ⟨l, hl⟩) hx
    · rw [((ha.plain .unscale).visible d hx).2] at hd
      cases hd
    · cases ha.apart (.length l) .unscale d hl hx
  rw [List.append_assoc, List.append_assoc, readStroke, Kit.read_append hk he hs, Option.map_some]
  dsimp only
  rw [readMark_append ha hb hn]
  dsimp only
  rw [LengthText.read_append (apart_length ha) hc (next_length hr)]

omit ha in
theorem readStroke_of_none {kit : Kit δ} {cs : List Char} (h : kit.read cs = none) :
    tokens.readStroke kit cs = none := by
  rw [readStroke, h]
  rfl

omit ha in
/-- No command is read where no drum, no rest and no default length is. -/
theorem readCommand_eq_none {kit : Kit δ} {cs : List Char} (hd : kit.read cs = none)
    (hr : tokens.rest.read cs = none) (hs : tokens.setLength.read cs = none) :
    tokens.readCommand kit cs = none := by
  refine Scanner.firstOf_eq_none fun r hmem => ?_
  simp only [List.mem_cons, List.not_mem_nil, or_false] at hmem
  rcases hmem with rfl | rfl | rfl
  · exact readStroke_of_none hd
  · exact LengthTokens.readTimed_of_none hr
  · exact LengthTokens.readTimed_of_none hs

/-- Where a token is written no drum is read. -/
theorem read_kit_of_spelt (hk : Kit.Distinct tokens drums) {t : Token} {text : List Char}
    (hs : (tokens.pattern t).Spelt text) (rest : List Char) :
    (Kit.ofTokens drums).read (text ++ rest) = none := by
  refine Kit.read_eq_none hk (hs.next (ha.plain t) (fun c hc entry he hc' => ?_) rest)
  exact not_mem_heads_of_foreign (hk.own_of_mem_heads he hc').2 t hc

/-- A command that is written is read, if what comes next does not go on with it. -/
theorem readCommand_append (hk : Kit.Distinct tokens drums) {command : Command δ}
    {text rest : List Char} (h : tokens.Written (Kit.ofTokens drums) command text)
    (hr : Next (fun c => ¬tokens.Continues c) rest) :
    tokens.readCommand (Kit.ofTokens drums) (text ++ rest) = some (command, rest) := by
  have hafter := next_length hr
  unfold readCommand
  cases h with
  | stroke he hs hb hc =>
    exact Scanner.firstOf_cons_of_some (readStroke_append ha hk he hs hb hc hr)
  | @rest t a b hs ht =>
    have hstroke : tokens.readStroke (Kit.ofTokens drums) (a ++ b ++ rest) = none := by
      rw [List.append_assoc]
      exact readStroke_of_none (read_kit_of_spelt ha hk (t := .rest) hs _)
    rw [Scanner.firstOf_cons_of_none hstroke]
    exact Scanner.firstOf_cons_of_some
      (LengthTokens.readTimed_append (apart_length ha) (ha.plain .rest) hs ht hafter)
  | @setLength t a b hs ht =>
    have hstroke : tokens.readStroke (Kit.ofTokens drums) (a ++ b ++ rest) = none := by
      rw [List.append_assoc]
      exact readStroke_of_none (read_kit_of_spelt ha hk (t := .setLength) hs _)
    have hrest : tokens.readTimed tokens.rest Command.rest (a ++ b ++ rest) =
        (none : Option (Command δ × List Char)) := by
      rw [List.append_assoc]
      exact LengthTokens.readTimed_of_none
        (ha.read_other (show Token.setLength ≠ .rest from nofun) hs _)
    rw [Scanner.firstOf_cons_of_none hstroke, Scanner.firstOf_cons_of_none hrest]
    exact Scanner.firstOf_cons_of_some
      (LengthTokens.readTimed_append (apart_length ha) (ha.plain .setLength) hs ht hafter)

end

/-! ## A whole text -/

theorem commands_eq_sweep (tokens : Tokens) (kit : Kit δ) (cs : List Char) :
    tokens.commands kit cs =
      (tokens.readCommand kit).sweep (tokens.readCommand_progresses kit) cs :=
  Scanner.eq_sweep (tokens.readCommand_progresses kit) (tokens.commands_nil kit)
    (fun c cs command rest h => by rw [tokens.commands_cons, h])
    (fun c cs h => by rw [tokens.commands_cons, h]) cs

theorem ignoresBlanks_readCommand (tokens : Tokens) (kit : Kit δ) :
    (tokens.readCommand kit).IgnoresBlanks := by
  refine Scanner.IgnoresBlanks.firstOf fun r hr => ?_
  simp only [List.mem_cons, List.not_mem_nil, or_false] at hr
  rcases hr with rfl | rfl | rfl
  · intro cs cs' heq
    have hd : kit.read cs = kit.read cs' := by
      refine Scanner.firstOf_congr fun r hr => ?_
      obtain ⟨entry, -, rfl⟩ := List.mem_map.1 hr
      exact (Scanner.ignoresBlanks_read entry.1).map _ cs cs' heq
    rw [readStroke, readStroke, hd]
  · exact Scanner.ignoresBlanks_readTimed tokens.length tokens.rest _
  · exact Scanner.ignoresBlanks_readTimed tokens.length tokens.setLength _

/-- The commands of a text are those that were written. -/
theorem commands_of_score (ha : Apart tokens.pattern) (hk : Kit.Distinct tokens drums)
    {commands : List (Command δ)} {text : List Char}
    (h : tokens.Score (Kit.ofTokens drums) commands text) :
    tokens.commands (Kit.ofTokens drums) text = commands := by
  rw [commands_eq_sweep]
  refine Scanner.sweep_scattered (tokens.readCommand_progresses _)
    (tokens.ignoresBlanks_readCommand _) (fun c hc => not_continues_of_foreign hc.1)
    (fun c hc hb cs => ?_) (fun command a more hw => hw.next ha hk more)
    (fun command a more hw hr => readCommand_append ha hk hw hr) h
  have hnone : ∀ t, (tokens.pattern t).read (c :: cs) = none := fun t =>
    Pattern.read_eq_none (ha.plain t) (.cons_of_not_blank hb (not_mem_heads_of_foreign hc.1 t) _)
  have hdrum : Next (fun c => ∀ entry ∈ Kit.ofTokens drums, c ∉ entry.1.heads) (c :: cs) :=
    .cons_of_not_blank hb (fun entry he => Pattern.not_mem_heads (hc.2 entry he)) _
  exact readCommand_eq_none (Kit.read_eq_none hk hdrum) (hnone .rest) (hnone .setLength)

end Tokens

/-! ## What commands mean -/

/-- What a command means in a state: the beats that it yields, and the state after it. Only the
lengths of strokes are scaled, and not where the stroke is marked. -/
def meaning (tokens : Tokens) (s : State) : Command δ → List (Beat δ) × State
  | .stroke drum true t => ([⟨some drum, t.value s.length * .whole⟩], s)
  | .stroke drum false t => ([⟨some drum, t.value s.length * tokens.scale.getD .whole⟩], s)
  | .rest t => ([⟨none, t.value s.length⟩], s)
  | .setLength t => ([], ⟨t.value s.length, s.octave⟩)

/-- What commands mean in a state, one after the other. -/
def interpret (tokens : Tokens) (s : State) : List (Command δ) → List (Beat δ) × State
  | [] => ([], s)
  | command :: commands =>
    ((meaning tokens s command).1 ++ (interpret tokens (meaning tokens s command).2 commands).1,
      (interpret tokens (meaning tokens s command).2 commands).2)

/-- The length text of a new default length. -/
def Command.setLength? : Command δ → Option LengthText
  | stroke .. | rest _ => none
  | setLength t => some t

theorem meaning_eq (tokens : Tokens) (s : State) (command : Command δ) :
    meaning tokens s command = ((command.beat? tokens s).toList, command.next s) := by
  cases command with
  | stroke drum unscaled t => cases unscaled <;> rfl
  | _ => rfl

theorem perform_eq_interpret (tokens : Tokens) (s : State) (commands : List (Command δ)) :
    perform tokens s commands = interpret tokens s commands := by
  induction commands generalizing s with
  | nil => rfl
  | cons command commands ih => rw [interpret, meaning_eq, ← ih]; rfl

/-- After a piece the default length is the last one that was set, and the octave is what it
was. -/
theorem final_eq (s : State) (commands : List (Command δ)) :
    final s commands =
      ⟨(commands.filterMap Command.setLength?).foldl (fun l t => t.value l) s.length,
        s.octave⟩ := by
  induction commands generalizing s with
  | nil => rfl
  | cons command commands ih =>
    rw [final, List.foldl_cons]
    refine (ih (command.next s)).trans ?_
    cases command <;> rfl

/-- In either dialect, and with any kit whose tokens can be told apart, exactly the commands for
which there are tokens can be written, and however they are written, they are played as they
mean. -/
theorem play_written (d : Dialect) (hk : Kit.Distinct d.percussion drums)
    (commands : List (Command δ)) :
    ((∃ text, d.percussion.Score (Kit.ofTokens drums) commands text) ↔
      ∀ command ∈ commands, d.percussion.Writable (Kit.ofTokens drums) command) ∧
    ∀ text, d.percussion.Score (Kit.ofTokens drums) commands text → ∀ s,
      play d.percussion (Kit.ofTokens drums) s text = interpret d.percussion s commands ∧
      (play d.percussion (Kit.ofTokens drums) s text).2 =
        ⟨(commands.filterMap Command.setLength?).foldl (fun l t => t.value l) s.length,
          s.octave⟩ := by
  refine ⟨Tokens.exists_score_iff d.spellings_percussion, fun text h s => ?_⟩
  rw [play, Tokens.commands_of_score d.apart_percussion hk h]
  exact ⟨perform_eq_interpret _ s commands, final_eq s commands⟩

/-- Three drums, two of which begin with the same character. -/
def doraDokaTa : List (List Char × Nat) := [(['ド', 'ラ'], 1), (['ド', 'カ'], 2), (['タ'], 3)]

/-- A rhythm with a foreign character in front, a mark between a drum and its length, blanks in
front of both, a length in several parts, and a number that writes no length. -/
def phrase : List Char :=
  ['x', ' ', 'ド', 'カ', ' ', 'ン', '\u3000', '0', '8', '&', '4', 'ー', '．', '!', 'l', '8', '・',
    '\n', 'ド', 'ラ', '0']

/-- The drum with its mark is not scaled, and the one without is. -/
theorem play_written_phrase :
    Kit.Distinct Dialect.japanese.percussion doraDokaTa ∧
      Dialect.japanese.percussion.Score (Kit.ofTokens doraDokaTa)
        [.stroke 2 true ⟨[8, 4], [.hold, .dot]⟩, .setLength ⟨[8], []⟩, .rest ⟨[], []⟩,
          .stroke 1 false ⟨[0], []⟩] phrase ∧
      play Dialect.japanese.percussion (Kit.ofTokens doraDokaTa) ⟨.quarter, some 5⟩ phrase =
        ([⟨some 2, ⟨15, 16⟩⟩, ⟨none, ⟨1, 8⟩⟩, ⟨some 1, ⟨1, 16⟩⟩], ⟨⟨1, 8⟩, some 5⟩) := by
  let tokens := Dialect.japanese.percussion
  have hk : Kit.Distinct tokens doraDokaTa := by decide
  have hnumbers : tokens.length.Numbers [8, 4] (['\u3000', '0', '8'] ++ ['&'] ++ ['4']) :=
    .more ⟨['\u3000'], ['0', '8'], List.all_eq_true.1 rfl, nofun, List.all_eq_true.1 rfl, rfl, rfl⟩
      ⟨[], ['&'], nofun, by decide, rfl⟩
      (.one ⟨[], ['4'], nofun, nofun, List.all_eq_true.1 rfl, rfl, rfl⟩)
  have hsuffixes : tokens.length.Suffixes [.hold, .dot] (['ー'] ++ (['．'] ++ [])) :=
    .cons ⟨[], ['ー'], nofun, by decide, rfl⟩ (.cons ⟨[], ['．'], nofun, by decide, rfl⟩ .nil)
  have hnumber : ∀ c, c = '0' ∨ c = '8' → tokens.length.Written ⟨[digitsValue [c]], []⟩ [c] :=
    fun c hc => ⟨[c], [], .one ⟨[], [c], nofun, nofun,
      by rcases hc with rfl | rfl <;> exact List.all_eq_true.1 rfl, rfl, rfl⟩, .nil, rfl⟩
  have hmarked : tokens.Written (Kit.ofTokens doraDokaTa)
      (.stroke 2 true ⟨[8, 4], [.hold, .dot]⟩)
      ([' ', 'ド', 'カ'] ++ ([' ', 'ン'] ++ ['\u3000', '0', '8', '&', '4', 'ー', '．'])) :=
    .stroke (p := .literal ['ド', 'カ']) (.tail _ (.head _))
      ⟨[' '], ['ド', 'カ'], List.all_eq_true.1 rfl, by decide, rfl⟩
      ⟨[' '], ['ン'], List.all_eq_true.1 rfl, by decide, rfl⟩ ⟨_, _, hnumbers, hsuffixes, rfl⟩
  have hset : tokens.Written (Kit.ofTokens doraDokaTa) (.setLength ⟨[8], []⟩) (['l'] ++ ['8']) :=
    .setLength ⟨[], ['l'], nofun, by decide, rfl⟩ (hnumber '8' (.inr rfl))
  have hrest : tokens.Written (Kit.ofTokens doraDokaTa) (.rest ⟨[], []⟩) (['・'] ++ []) :=
    .rest ⟨[], ['・'], nofun, by decide, rfl⟩ ⟨[], [], .none, .nil, rfl⟩
  have hscaled : tokens.Written (Kit.ofTokens doraDokaTa) (.stroke 1 false ⟨[0], []⟩)
      (['\n', 'ド', 'ラ'] ++ ([] ++ ['0'])) :=
    .stroke (p := .literal ['ド', 'ラ']) (.head _)
      ⟨['\n'], ['ド', 'ラ'], List.all_eq_true.1 rfl, by decide, rfl⟩ rfl (hnumber '0' (.inl rfl))
  have hforeign : ∀ c, c = 'x' ∨ c = '!' →
      tokens.Foreign c ∧ (Kit.ofTokens doraDokaTa).Lacks c := by
    rintro c (rfl | rfl) <;> decide
  have hscore : tokens.Score (Kit.ofTokens doraDokaTa) _ phrase :=
    .foreign (hforeign 'x' (.inl rfl)) (.value hmarked (.foreign (hforeign '!' (.inr rfl))
      (.value hset (.value hrest (.value hscaled .nil)))))
  exact ⟨hk, hscore, ((play_written .japanese hk _).2 _ hscore _).1.trans (by decide)⟩

end Percussion

end MusicMacro
