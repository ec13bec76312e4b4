import MusicMacro.Proofs.Melody.Grammar
import MusicMacro.Proofs.Melody.Meaning

/-!
# Reading melodies

A melody is read as it was written: no command takes anything of the next one, and what stands
between commands changes nothing. What is read is then performed as it is meant.

* `readCommand_append`, `readCommand_eq_none` — a command is read where one is written.
* `commands_of_score` — the commands of a melody that is written.
* `play_score` — in either dialect a melody is played as its commands mean.
-/

namespace MusicMacro

namespace Melody

namespace Tokens

variable {tokens : Tokens}

/-! ## Where nothing is read -/

theorem readTone_of_none {cs : List Char} (h : ∀ k, (tokens.degree k).read cs = none) :
    tokens.readTone cs = none := by
  have hd : tokens.readDegree cs = none := by
    refine Scanner.firstOf_eq_none fun r hr => ?_
    obtain ⟨k, -, rfl⟩ := List.mem_map.1 hr
    exact Scanner.map_of_none (h k)
  rw [readTone, hd]
  rfl

/-- No command is read where no token is. -/
theorem readCommand_eq_none {cs : List Char} (h : ∀ t, (tokens.pattern t).read cs = none) :
    tokens.readCommand cs = none := by
  refine Scanner.firstOf_eq_none fun r hr => ?_
  simp only [List.mem_cons, List.not_mem_nil, or_false] at hr
  rcases hr with rfl | rfl | rfl | rfl | rfl
  · exact readTone_of_none fun k => h (.degree k)
  · exact LengthTokens.readTimed_of_none (h .rest)
  · exact LengthTokens.readTimed_of_none (h .setLength)
  · exact Scanner.map_of_none (h .octaveUp)
  · exact Scanner.map_of_none (h .octaveDown)

/-! ## Where a command is written -/

section

variable (ha : Apart tokens.pattern)

include ha

theorem readDegree_append {k : Degree} {text : List Char} (h : (tokens.degree k).Spelt text)
    (rest : List Char) : tokens.readDegree (text ++ rest) = some (k, rest) := by
  obtain ⟨m, hm⟩ := Pattern.read_append (ha.plain (.degree k)) h rest
  have hk : (tokens.degree k).read.map (fun _ => k) (text ++ rest) = some (k, rest) :=
    Scanner.map_eq_some.2 ⟨m, hm, rfl⟩
  refine Scanner.firstOf_eq_some (List.mem_map.2 ⟨k, by cases k <;> decide, rfl⟩) hk fun r hr => ?_
  obtain ⟨k', -, rfl⟩ := List.mem_map.1 hr
  by_cases hkk : k' = k
  · rw [hkk]
    exact .inl hk
  · have hne : Token.degree k ≠ .degree k' := fun h => hkk (Token.degree.inj h).symm
    exact .inr (Scanner.map_of_none (ha.read_other hne h rest))

/-- An accidental that is written is read. -/
theorem readAccidental_append (a : Accidental) {text : List Char}
    (h : (tokens.pattern (.accidental a)).Spelt text) (rest : List Char) :
    tokens.readAccidental (text ++ rest) = some (a, rest) := by
  obtain ⟨m, hm⟩ := Pattern.read_append (ha.plain (.accidental a)) h rest
  unfold readAccidental Scanner.orElse Scanner.map
  cases a with
  | sharp =>
    rw [show tokens.sharp.read (text ++ rest) = some (m, rest) from hm]
    rfl
  | flat =>
    have hn : tokens.sharp.read (text ++ rest) = none :=
      ha.read_other (show Token.accidental .flat ≠ .accidental .sharp from nofun) h rest
    rw [hn, show tokens.flat.read (text ++ rest) = some (m, rest) from hm]
    rfl

theorem readAccidental_eq_none {cs : List Char}
    (h : Next (fun c => ∀ a, c ∉ (tokens.pattern (.accidental a)).heads) cs) :
    tokens.readAccidental cs = none := by
  have hn : ∀ a, (tokens.pattern (.accidental a)).read cs = none := fun a =>
    Pattern.read_eq_none (ha.plain (.accidental a)) (h.mono fun c hc => hc a)
  unfold readAccidental Scanner.orElse Scanner.map
  rw [show tokens.sharp.read cs = none from hn .sharp,
    show tokens.flat.read cs = none from hn .flat]
  rfl

theorem readTone_append {k : Degree} {accidentals : List Accidental} {t : LengthText}
    {a b c rest : List Char} (hk : (tokens.degree k).Spelt a)
    (hb : tokens.Accidentals accidentals b) (hc : tokens.length.Written t c)
    (hr : Next (fun c => ¬tokens.Continues c) rest) :
    tokens.readTone (a ++ (b ++ c) ++ rest) = some (.tone k accidentals t, rest) := by
  -- a length text begins with no accidental, and neither does what comes after it
  have hn : tokens.readAccidental (c ++ rest) = none := by
    refine readAccidental_eq_none ha (hc.next (apart_length ha) ?_
      (hr.mono fun d hd x hx => hd (.inr ⟨x, hx⟩)))
    rintro d (hd | ⟨l, hl⟩) x hx
    · rw [((ha.plain (.accidental x)).visible d hx).2] at hd
      cases hd
    · cases ha.apart (.length l) (.accidental x) d hl hx
  rw [List.append_assoc, List.append_assoc, readTone, readDegree_append ha hk, Option.map_some]
  dsimp only
  rw [Scanner.many_append tokens.readAccidental_progresses
    (fun x d more hw => readAccidental_append ha x hw more) hb hn]
  dsimp only
  rw [LengthText.read_append (apart_length ha) hc (next_length hr)]

omit ha in
theorem map_read_append {p : Pattern} (hp : p.Plain) {text : List Char} (hs : p.Spelt text)
    (command : Command) (rest : List Char) :
    p.read.map (fun _ => command) (text ++ rest) = some (command, rest) := by
  obtain ⟨m, hm⟩ := Pattern.read_append hp hs rest
  exact Scanner.map_eq_some.2 ⟨m, hm, rfl⟩

/-- A command that is written is read, if what comes next does not go on with it. -/
theorem readCommand_append {command : Command} {text rest : List Char}
    (h : tokens.Written command text) (hr : Next (fun c => ¬tokens.Continues c) rest) :
    tokens.readCommand (text ++ rest) = some (command, rest) := by
  have other : ∀ t, command.token ≠ t → (tokens.pattern t).read (text ++ rest) = none :=
    fun t ht => h.read_other ha rest ht
  -- the alternatives before the one of the command fail by the first token
  have noTone (hk : ∀ k, command.token ≠ .degree k) : tokens.readTone (text ++ rest) = none :=
    readTone_of_none fun k => other (.degree k) (hk k)
  have noRest (ht : command.token ≠ .rest) :
      tokens.readTimed tokens.rest .rest (text ++ rest) = none :=
    LengthTokens.readTimed_of_none (other .rest ht)
  have noSetLength (ht : command.token ≠ .setLength) :
      tokens.readTimed tokens.setLength .setLength (text ++ rest) = none :=
    LengthTokens.readTimed_of_none (other .setLength ht)
  have noOctaveUp (ht : command.token ≠ .octaveUp) :
      tokens.octaveUp.read.map (fun _ => Command.octaveUp) (text ++ rest) = none :=
    Scanner.map_of_none (other .octaveUp ht)
  have hafter := next_length hr
  unfold readCommand
  cases h with
  | tone hk hb hc => exact Scanner.firstOf_cons_of_some (readTone_append ha hk hb hc hr)
  | rest hs ht =>
    rw [Scanner.firstOf_cons_of_none (noTone nofun)]
    exact Scanner.firstOf_cons_of_some
      (LengthTokens.readTimed_append (apart_length ha) (ha.plain .rest) hs ht hafter)
  | setLength hs ht =>
    rw [Scanner.firstOf_cons_of_none (noTone nofun), Scanner.firstOf_cons_of_none (noRest nofun)]
    exact Scanner.firstOf_cons_of_some
      (LengthTokens.readTimed_append (apart_length ha) (ha.plain .setLength) hs ht hafter)
  | octaveUp hs =>
    rw [Scanner.firstOf_cons_of_none (noTone nofun), Scanner.firstOf_cons_of_none (noRest nofun),
      Scanner.firstOf_cons_of_none (noSetLength nofun)]
    exact Scanner.firstOf_cons_of_some (map_read_append (ha.plain .octaveUp) hs _ rest)
  | octaveDown hs =>
    rw [Scanner.firstOf_cons_of_none (noTone nofun), Scanner.firstOf_cons_of_none (noRest nofun),
      Scanner.firstOf_cons_of_none (noSetLength nofun),
      Scanner.firstOf_cons_of_none (noOctaveUp nofun)]
    exact Scanner.firstOf_cons_of_some (map_read_append (ha.plain .octaveDown) hs _ rest)

end

/-! ## A whole text -/

theorem commands_eq_sweep (tokens : Tokens) (cs : List Char) :
    tokens.commands cs = tokens.readCommand.sweep tokens.readCommand_progresses cs :=
  Scanner.eq_sweep tokens.readCommand_progresses tokens.commands_nil
    (fun c cs command rest h => by rw [tokens.commands_cons, h])
    (fun c cs h => by rw [tokens.commands_cons, h]) cs

theorem ignoresBlanks_readCommand (tokens : Tokens) : tokens.readCommand.IgnoresBlanks := by
  refine Scanner.IgnoresBlanks.firstOf fun r hr => ?_
  simp only [List.mem_cons, List.not_mem_nil, or_false] at hr
  rcases hr with rfl | rfl | rfl | rfl | rfl
  · intro cs cs' heq
    have hd : tokens.readDegree cs = tokens.readDegree cs' := by
      refine Scanner.firstOf_congr fun r hr => ?_
      obtain ⟨k, -, rfl⟩ := List.mem_map.1 hr
      exact (Scanner.ignoresBlanks_read (tokens.degree k)).map _ cs cs' heq
    rw [readTone, readTone, hd]
  · exact Scanner.ignoresBlanks_readTimed tokens.length tokens.rest _
  · exact Scanner.ignoresBlanks_readTimed tokens.length tokens.setLength _
  · exact (Scanner.ignoresBlanks_read tokens.octaveUp).map _
  · exact (Scanner.ignoresBlanks_read tokens.octaveDown).map _

/-- The commands of a text are those that were written. -/
theorem commands_of_score (ha : Apart tokens.pattern) {commands : List Command}
    {text : List Char} (h : tokens.Score commands text) : tokens.commands text = commands := by
  rw [commands_eq_sweep]
  refine Scanner.sweep_scattered tokens.readCommand_progresses tokens.ignoresBlanks_readCommand
    (fun c => not_continues_of_foreign) (fun c hc hb cs => ?_)
    (fun command a more hw => hw.next ha more)
    (fun command a more hw hr => readCommand_append ha hw hr) (score_iff_scattered.1 h)
  exact readCommand_eq_none fun t =>
    Pattern.read_eq_none (ha.plain t) (.cons_of_not_blank hb (not_mem_heads_of_foreign hc t) _)

end Tokens

/-! ## What is performed -/

/-- In either dialect all commands can be written as a melody, and however they are written, the
melody is played as they mean: with 32 bits of its pitches and of its last octave, and so exactly
as they mean, wherever that fits. -/
theorem play_score (d : Dialect) (commands : List Command) :
    (∃ text, d.melody.Score commands text) ∧
    ∀ text, d.melody.Score commands text → ∀ s : State,
      let (notes, length, octave) := interpret s.length s.octave.toInt commands
      play d.melody s text = (notes.map Meant.note, ⟨length, .ofInt octave⟩) ∧
      ((∀ m ∈ notes, m.Fits) → (play d.melody s text).1.map Note.meant = notes) ∧
      (Fits octave → (play d.melody s text).2.octave.toInt = octave) := by
  refine ⟨Tokens.exists_score d.spellings_melody commands, fun text h s => ?_⟩
  have hplay : play d.melody s text = _ :=
    (congrArg (perform s) (Tokens.commands_of_score d.apart_melody h)).trans
      (perform_eq_interpret s commands)
  refine ⟨hplay, fun hfits => ?_, fun hfits => ?_⟩
  · rw [hplay]
    exact map_meant_note hfits
  · rw [hplay]
    exact hfits.toInt_ofInt

/-- Accidentals that cancel out, a number with a leading zero, every kind of suffix, a character
that is in no token, and a number that is no length. -/
def obstacles : List Char :=
  ['x', ' ', 'フ', 'ァ', '#', '♭', '\u3000', '0', '8', '&', '4', '-', '．', '^', 'l', '0', '・']

theorem play_score_obstacles :
    Dialect.japanese.melody.Score
        [.tone .f [.sharp, .flat] ⟨[8, 4], [.hold, .dot]⟩, .octaveUp, .setLength ⟨[0], []⟩,
          .rest ⟨[], []⟩] obstacles ∧
      play Dialect.japanese.melody .start obstacles =
        ([⟨some 41, ⟨15, 16⟩⟩, ⟨none, .quarter⟩], ⟨.quarter, 5⟩) ∧
      (play Dialect.japanese.melody .start obstacles).1.map Note.meant =
        [⟨some 41, ⟨15, 16⟩⟩, ⟨none, .quarter⟩] ∧
      (play Dialect.japanese.melody .start obstacles).2.octave.toInt = 5 ∧
      -- the highest octave there is, where the pitch and then the octave go round
      play Dialect.japanese.melody ⟨.quarter, .maxValue⟩ obstacles =
        ([⟨some (-19), ⟨15, 16⟩⟩, ⟨none, .quarter⟩], ⟨.quarter, .minValue⟩) := by
  let tokens := Dialect.japanese.melody
  have hnumbers : tokens.length.Numbers [8, 4] (['\u3000', '0', '8'] ++ ['&'] ++ ['4']) :=
    .more ⟨['\u3000'], ['0', '8'], List.all_eq_true.1 rfl, nofun, List.all_eq_true.1 rfl, rfl, rfl⟩
      ⟨[], ['&'], nofun, by decide, rfl⟩
      (.one ⟨[], ['4'], nofun, nofun, List.all_eq_true.1 rfl, rfl, rfl⟩)
  have hsuffixes : tokens.length.Suffixes [.hold, .dot] (['-'] ++ (['．'] ++ [])) :=
    .cons ⟨[], ['-'], nofun, by decide, rfl⟩ (.cons ⟨[], ['．'], nofun, by decide, rfl⟩ .nil)
  have haccidentals : tokens.Accidentals [.sharp, .flat] (['#'] ++ (['♭'] ++ [])) :=
    .cons ⟨[], ['#'], nofun, by decide, rfl⟩ (.cons ⟨[], ['♭'], nofun, by decide, rfl⟩ .nil)
  have htone : tokens.Written (.tone .f [.sharp, .flat] ⟨[8, 4], [.hold, .dot]⟩)
      ([' ', 'フ', 'ァ'] ++ (['#', '♭'] ++ ['\u3000', '0', '8', '&', '4', '-', '．'])) :=
    .tone ⟨[' '], ['フ', 'ァ'], List.all_eq_true.1 rfl, by decide, rfl⟩ haccidentals
      ⟨_, _, hnumbers, hsuffixes, rfl⟩
  have hup : tokens.Written .octaveUp ['^'] := .octaveUp ⟨[], ['^'], nofun, by decide, rfl⟩
  have hset : tokens.Written (.setLength ⟨[0], []⟩) (['l'] ++ (['0'] ++ [])) :=
    .setLength ⟨[], ['l'], nofun, by decide, rfl⟩
      ⟨['0'], [], .one ⟨[], ['0'], nofun, nofun, List.all_eq_true.1 rfl, rfl, rfl⟩, .nil, rfl⟩
  have hrest : tokens.Written (.rest ⟨[], []⟩) (['・'] ++ []) :=
    .rest ⟨[], ['・'], nofun, by decide, rfl⟩ ⟨[], [], .none, .nil, rfl⟩
  have hscore := Tokens.Score.foreign (show tokens.Foreign 'x' by decide)
    (.command htone (.command hup (.command hset (.command hrest .nil))))
  obtain ⟨hplay, hnotes, hoctave⟩ := (play_score .japanese _).2 _ hscore .start
  obtain ⟨hround, -⟩ := (play_score .japanese _).2 _ hscore ⟨.quarter, .maxValue⟩
  exact ⟨hscore, hplay.trans (by decide), hnotes (by decide), hoctave (by decide),
    hround.trans (by decide)⟩

end Melody

end MusicMacro
