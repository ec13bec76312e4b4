import MusicMacro.Proofs.Percussion.Reading
import MusicMacro.Proofs.Text.Places

/-!
# Shadowed drums

The order of a kit decides which drum is read: the first one whose token stands in the text, also
where a later token is longer. A drum whose token begins with the token of an earlier drum is never
read, and a kit without it plays everything the same.

* `Kit.first?`, `Kit.read_ofTokens` — the drum that is read, by the tokens alone.
* `Kit.first?_shadowed` — a shadowed drum is never the first one.
* `sounded`, `map_fst_sounded` — the beats of a text with the places of their tokens.
* `first_token_wins` — the result.
-/

namespace MusicMacro

namespace Percussion

variable {δ : Type} {tokens : Tokens} {kit : Kit δ}

/-! ## Drums -/

namespace Kit

/-- The first of the drums whose token is not empty and begins the text. -/
def first? (drums : List (List Char × δ)) (place : List Char) : Option (List Char × δ) :=
  drums.find? fun entry => entry.1 ≠ [] ∧ entry.1 <+: place

/-- Behind any blanks the first drum is read. -/
theorem read_ofTokens (drums : List (List Char × δ)) (cs : List Char) :
    (ofTokens drums).read cs = (first? drums (skipBlanks cs)).map fun entry =>
      (entry.2, (skipBlanks cs).drop entry.1.length) := by
  induction drums with
  | nil => rfl
  | cons entry drums ih =>
    by_cases h : entry.1 ≠ [] ∧ entry.1 <+: skipBlanks cs
    · have hread : Scanner.map (fun _ => entry.2) (Pattern.literal entry.1).read cs =
          some (entry.2, (skipBlanks cs).drop entry.1.length) :=
        Scanner.map_eq_some.2 ⟨entry.1, by rw [Pattern.read_literal_eq, if_pos h], rfl⟩
      rw [first?, List.find?_cons_of_pos (by simpa using h)]
      exact Scanner.firstOf_cons_of_some hread
    · have hread : Scanner.map (fun _ => entry.2) (Pattern.literal entry.1).read cs = none :=
        Scanner.map_of_none (by rw [Pattern.read_literal_eq, if_neg h])
      rw [first?, List.find?_cons_of_neg (by simpa using h)]
      exact (Scanner.firstOf_cons_of_none hread).trans ih

/-- A drum whose token begins with an earlier token is never the first one. -/
theorem first?_shadowed {before after : List (List Char × δ)} {shadowed : List Char × δ}
    (h : ∃ entry ∈ before, entry.1 ≠ [] ∧ entry.1 <+: shadowed.1) (place : List Char) :
    first? (before ++ after) place = first? (before ++ shadowed :: after) place := by
  unfold first?
  rw [List.find?_append, List.find?_append, List.find?_cons]
  by_cases hs : shadowed.1 ≠ [] ∧ shadowed.1 <+: place
  · obtain ⟨entry, he, hne, hprefix⟩ := h
    have hearlier : (before.find? fun entry => entry.1 ≠ [] ∧ entry.1 <+: place).isSome := by
      rw [List.find?_isSome]
      exact ⟨entry, he, decide_eq_true ⟨hne, hprefix.trans hs.2⟩⟩
    obtain ⟨first, hfirst⟩ := Option.isSome_iff_exists.1 hearlier
    rw [hfirst, Option.some_or, Option.some_or]
  · rw [decide_eq_false hs]

theorem read_consumes (kit : Kit δ) : Scanner.Consumes kit.read := by
  refine Scanner.Consumes.firstOf fun r hr => ?_
  obtain ⟨entry, -, rfl⟩ := List.mem_map.1 hr
  exact entry.1.read_consumes.map _

end Kit

/-! ## Commands -/

/-- The drum of a stroke. -/
def Command.drum? : Command δ → Option δ
  | stroke drum _ _ => some drum
  | rest _ | setLength _ => none

namespace Tokens

theorem readMark_suffix (tokens : Tokens) (cs : List Char) : (tokens.readMark cs).2 <:+ cs := by
  unfold readMark
  split
  · next rest h =>
    obtain ⟨p, -, hp⟩ := Option.bind_eq_some_iff.1 h
    exact p.read_consumes cs _ rest hp
  · exact List.suffix_rfl

theorem readStroke_consumes (tokens : Tokens) (kit : Kit δ) :
    Scanner.Consumes (tokens.readStroke kit) := by
  intro cs command rest h
  obtain ⟨⟨drum, after⟩, hd, heq⟩ := Option.map_eq_some_iff.1 h
  cases heq
  exact (LengthText.read_suffix tokens.length _).trans
    ((tokens.readMark_suffix after).trans (kit.read_consumes cs drum after hd))

theorem readCommand_consumes (tokens : Tokens) (kit : Kit δ) :
    Scanner.Consumes (tokens.readCommand kit) := by
  refine Scanner.Consumes.firstOf fun r hr => ?_
  simp only [List.mem_cons, List.not_mem_nil, or_false] at hr
  rcases hr with rfl | rfl | rfl
  · exact tokens.readStroke_consumes kit
  · exact LengthTokens.readTimed_consumes tokens.length tokens.rest _
  · exact LengthTokens.readTimed_consumes tokens.length tokens.setLength _

/-- A command is a stroke on the drum that is read, and no stroke where none is. -/
theorem drum?_of_readCommand {cs rest : List Char} {c : Command δ}
    (h : tokens.readCommand kit cs = some (c, rest)) :
    c.drum? = (kit.read cs).map Prod.fst := by
  unfold readCommand at h
  cases hd : kit.read cs with
  | some p =>
    obtain ⟨unscaled, length, after, hstroke⟩ : ∃ unscaled length after,
        tokens.readStroke kit cs = some (.stroke p.1 unscaled length, after) :=
      ⟨_, _, _, by rw [readStroke, hd]; rfl⟩
    rw [Scanner.firstOf_cons_of_some hstroke] at h
    cases h
    rfl
  | none =>
    rw [Scanner.firstOf_cons_of_none (readStroke_of_none hd)] at h
    obtain ⟨r, hr, heq⟩ := List.exists_of_findSome?_eq_some h
    simp only [List.mem_cons, List.not_mem_nil, or_false] at hr
    rcases hr with rfl | rfl
    · obtain ⟨_, -, heq⟩ := Option.map_eq_some_iff.1 heq
      cases heq
      rfl
    · obtain ⟨_, -, heq⟩ := Option.map_eq_some_iff.1 heq
      cases heq
      rfl

/-- The commands of a text depend on the kit only by the drums that are read. -/
theorem commands_congr {kit kit' : Kit δ} (h : kit.read = kit'.read) (cs : List Char) :
    tokens.commands kit cs = tokens.commands kit' cs := by
  have hcommand : tokens.readCommand kit = tokens.readCommand kit' := by
    unfold readCommand readStroke
    rw [h]
  rw [commands_eq_sweep, commands_eq_sweep]
  congr 1

end Tokens

/-! ## Beats with their places -/

/-- The beats that commands yield, each where its command stands. -/
def beatsAt (tokens : Tokens) (s : State) :
    List (Command δ × List Char) → List (Beat δ × List Char)
  | [] => []
  | (c, place) :: rest =>
    (c.beat? tokens s).toList.map (·, place) ++ beatsAt tokens (c.next s) rest

/-- The beats of a text, each with the text from its token on. -/
def sounded (tokens : Tokens) (kit : Kit δ) (s : State) (text : List Char) :
    List (Beat δ × List Char) :=
  beatsAt tokens s
    ((tokens.readCommand kit).sightings (tokens.readCommand_progresses kit) text)

theorem map_fst_beatsAt (s : State) (cs : List (Command δ × List Char)) :
    (beatsAt tokens s cs).map Prod.fst = beats tokens s (cs.map Prod.fst) := by
  induction cs generalizing s with
  | nil => rfl
  | cons c cs ih =>
    obtain ⟨c, place⟩ := c
    rw [beatsAt, List.map_append, ih, List.map_cons, beats, List.map_map]
    congr 1
    exact List.map_id' _

/-- The beats with places are those that are played. -/
theorem map_fst_sounded (s : State) (text : List Char) :
    (sounded tokens kit s text).map Prod.fst = (play tokens kit s text).1 := by
  rw [sounded, map_fst_beatsAt, Scanner.map_fst_sightings, ← Tokens.commands_eq_sweep]
  rfl

theorem drum_of_beat? {s : State} {c : Command δ} {b : Beat δ} (h : c.beat? tokens s = some b) :
    b.drum = c.drum? := by
  cases c with
  | setLength => cases h
  | _ => cases h; rfl

theorem mem_beatsAt {s : State} {cs : List (Command δ × List Char)} {p : Beat δ × List Char}
    (h : p ∈ beatsAt tokens s cs) : ∃ c, (c, p.2) ∈ cs ∧ p.1.drum = c.drum? := by
  induction cs generalizing s with
  | nil => cases h
  | cons c cs ih =>
    obtain ⟨c, place⟩ := c
    rw [beatsAt, List.mem_append, List.mem_map] at h
    rcases h with ⟨b, hb, rfl⟩ | h
    · exact ⟨c, List.mem_cons_self, drum_of_beat? (Option.mem_toList.1 hb)⟩
    · obtain ⟨c', hc', hd⟩ := ih h
      exact ⟨c', List.mem_cons_of_mem _ hc', hd⟩

theorem beatsAt_pairwise {cs : List (Command δ × List Char)}
    (h : cs.Pairwise fun p q => q.2.length < p.2.length) (s : State) :
    (beatsAt tokens s cs).Pairwise fun p q => q.2.length < p.2.length := by
  induction cs generalizing s with
  | nil => exact .nil
  | cons c cs ih =>
    obtain ⟨c, place⟩ := c
    obtain ⟨hfirst, hrest⟩ := List.pairwise_cons.1 h
    have hlater : ∀ q ∈ beatsAt tokens (c.next s) cs, q.2.length < place.length := by
      intro q hq
      obtain ⟨c', hc', -⟩ := mem_beatsAt hq
      exact hfirst _ hc'
    rw [beatsAt]
    cases c.beat? tokens s with
    | none => exact ih hrest _
    | some b => exact List.pairwise_cons.2 ⟨hlater, ih hrest _⟩

/-- A drum whose token begins with the token of an earlier one can be left out: everything is played
the same. Every beat has its place in the text, one after the other, and its drum is the first one
in the order of the kit whose token stands there; a rest stands where there is none. -/
theorem first_token_wins (tokens : Tokens) (drums : List (List Char × δ)) (s : State)
    (text : List Char) :
    (∀ before shadowed after, drums = before ++ shadowed :: after →
      (∃ entry ∈ before, entry.1 ≠ [] ∧ entry.1 <+: shadowed.1) →
      play tokens (Kit.ofTokens (before ++ after)) s text =
        play tokens (Kit.ofTokens drums) s text) ∧
    (sounded tokens (Kit.ofTokens drums) s text).map Prod.fst =
      (play tokens (Kit.ofTokens drums) s text).1 ∧
    (sounded tokens (Kit.ofTokens drums) s text).Pairwise (fun p q => q.2.length < p.2.length) ∧
    ∀ p ∈ sounded tokens (Kit.ofTokens drums) s text,
      p.2 <:+ text ∧ skipBlanks p.2 = p.2 ∧
        p.1.drum = (Kit.first? drums p.2).map Prod.snd := by
  have hconsumes := tokens.readCommand_consumes (Kit.ofTokens drums)
  have hblind := tokens.ignoresBlanks_readCommand (Kit.ofTokens drums)
  refine ⟨?_, map_fst_sounded s text,
    beatsAt_pairwise (Scanner.sightings_pairwise _ hconsumes hblind text) s, ?_⟩
  · rintro before shadowed after rfl h
    have hread : (Kit.ofTokens (before ++ after)).read =
        (Kit.ofTokens (before ++ shadowed :: after)).read := by
      funext cs
      rw [Kit.read_ofTokens, Kit.read_ofTokens, Kit.first?_shadowed h]
    rw [play, Tokens.commands_congr hread]
    rfl
  · intro p hp
    obtain ⟨c, hc, hdrum⟩ := mem_beatsAt hp
    obtain ⟨hsuffix, hskip, rest, hread⟩ :=
      Scanner.read_of_mem_sightings _ hconsumes hblind hc
    refine ⟨hsuffix, hskip, ?_⟩
    rw [hdrum, Tokens.drum?_of_readCommand hread, Kit.read_ofTokens, Option.map_map]
    show (Kit.first? drums (skipBlanks p.2)).map Prod.snd = _
    rw [show skipBlanks p.2 = p.2 from hskip]

/-- The second drum is written only where the first one is read. -/
theorem first_token_wins_overlapping :
    let drums := [(['b'], 1), (['b', 'a'], 2), (['s'], 3)]
    play Dialect.standardPercussion (Kit.ofTokens [(['b'], 1), (['s'], 3)]) .start
        ['b', 'a', ' ', 's', 'r', 'b', 'a', '8'] =
      play Dialect.standardPercussion (Kit.ofTokens drums) .start
        ['b', 'a', ' ', 's', 'r', 'b', 'a', '8'] ∧
    (play Dialect.standardPercussion (Kit.ofTokens drums) .start
        ['b', 'a', ' ', 's', 'r', 'b', 'a', '8']).1.map (·.drum) =
      [some 1, some 3, none, some 1] := by
  intro drums
  refine ⟨?_, by decide +kernel⟩
  exact (first_token_wins Dialect.standardPercussion drums .start _).1 [(['b'], 1)] _ _ rfl
    ⟨_, List.mem_cons_self, by decide, by decide⟩

end Percussion

end MusicMacro
