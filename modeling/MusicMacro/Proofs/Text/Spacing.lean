import MusicMacro.Proofs.Text.Sweep

/-!
# Spacing

Blanks divide numbers and do nothing else, where every token is a single character. Two texts with
the same visible characters, of which the same ones make up numbers, are read alike.

Reading such texts does not keep step: a blank is skipped with the token behind it, or else it is
passed over on its own.

* `glyphs`, `Respaced` — what blanks leave of a text, and texts that differ in blanks only.
* `respaced_insert` — blanks may be put anywhere but between two digits.
* `Scanner.IgnoresSpacing` — a scanner reads the same off texts that differ in blanks only.
* `readDigits_ignoresSpacing`, `Pattern.read_ignoresSpacing`, `LengthText.read_respaced` — numbers,
  tokens and length texts.
* `Scanner.sweep_respaced` — what is found in a whole text.
-/

namespace MusicMacro

variable {α β : Type}

/-! ## Glyphs -/

/-- Whether a character is a digit and the text goes on with another digit of its number. -/
def joined (c : Char) (cs : List Char) : Bool := c.isDigit && cs.head?.any Char.isDigit

theorem joined_eq_false {c : Char} {cs : List Char}
    (h : ∀ d ∈ cs.head?, ¬(c.isDigit ∧ d.isDigit)) : joined c cs = false := by
  cases cs with
  | nil => exact Bool.and_false _
  | cons d cs => simpa [joined] using h d rfl

/-- The visible characters of a text, each with whether it is joined to the next one. -/
def glyphs : List Char → List (Char × Bool)
  | [] => []
  | c :: cs => if isBlank c then glyphs cs else (c, joined c cs) :: glyphs cs

theorem glyphs_cons_of_blank {c : Char} (h : isBlank c = true) (cs : List Char) :
    glyphs (c :: cs) = glyphs cs := by
  rw [glyphs, if_pos h]

theorem glyphs_cons_of_not_blank {c : Char} (h : isBlank c = false) (cs : List Char) :
    glyphs (c :: cs) = (c, joined c cs) :: glyphs cs := by
  rw [glyphs, h]
  rfl

theorem glyphs_append_of_blanks {blanks : List Char} (h : ∀ c ∈ blanks, isBlank c)
    (cs : List Char) : glyphs (blanks ++ cs) = glyphs cs := by
  induction blanks with
  | nil => rfl
  | cons c blanks ih =>
    obtain ⟨hc, h⟩ := List.forall_mem_cons.1 h
    rw [List.cons_append, glyphs_cons_of_blank hc, ih h]

theorem glyphs_skipBlanks (cs : List Char) : glyphs (skipBlanks cs) = glyphs cs := by
  rw [← glyphs_append_of_blanks (fun _ => isBlank_of_mem_leadingBlanks) (skipBlanks cs),
    leadingBlanks_append_skipBlanks]

/-- The texts differ in blanks only, and in none that divides a number. -/
def Respaced (cs cs' : List Char) : Prop := glyphs cs = glyphs cs'

theorem Respaced.of_cons {c d : Char} {cs cs' : List Char} (h : Respaced (c :: cs) (d :: cs'))
    (hc : isBlank c = false) (hd : isBlank d = false) :
    c = d ∧ joined c cs = joined d cs' ∧ Respaced cs cs' := by
  unfold Respaced at h
  rw [glyphs_cons_of_not_blank hc, glyphs_cons_of_not_blank hd] at h
  obtain ⟨hglyph, hmore⟩ := List.cons.inj h
  obtain ⟨hsame, hjoined⟩ := Prod.mk.inj hglyph
  exact ⟨hsame, hjoined, hmore⟩

theorem respaced_skipBlanks {cs cs' : List Char} (h : Respaced cs cs') :
    Respaced (skipBlanks cs) (skipBlanks cs') :=
  (glyphs_skipBlanks cs).trans (h.trans (glyphs_skipBlanks cs').symm)

/-- Texts that differ in blanks only are both at their end, or go on with the same character. -/
theorem Respaced.skipBlanks_cases {cs cs' : List Char} (h : Respaced cs cs') :
    (skipBlanks cs = [] ∧ skipBlanks cs' = []) ∨
      ∃ c more more', skipBlanks cs = c :: more ∧ skipBlanks cs' = c :: more' ∧
        joined c more = joined c more' ∧ Respaced more more' := by
  have hskip := respaced_skipBlanks h
  cases hs : skipBlanks cs with
  | nil =>
    cases hs' : skipBlanks cs' with
    | nil => exact .inl ⟨rfl, rfl⟩
    | cons d more' =>
      rw [hs, hs', Respaced, glyphs_cons_of_not_blank (isBlank_of_skipBlanks hs')] at hskip
      cases hskip
  | cons c more =>
    cases hs' : skipBlanks cs' with
    | nil =>
      rw [hs, hs', Respaced, glyphs_cons_of_not_blank (isBlank_of_skipBlanks hs)] at hskip
      cases hskip
    | cons d more' =>
      rw [hs, hs'] at hskip
      obtain ⟨rfl, hjoined, hmore⟩ :=
        hskip.of_cons (isBlank_of_skipBlanks hs) (isBlank_of_skipBlanks hs')
      exact .inr ⟨c, more, more', rfl, rfl, hjoined, hmore⟩

/-- Blanks in a place that is not between two digits change nothing but the spacing. -/
theorem respaced_insert {a b blanks : List Char} (hb : ∀ c ∈ blanks, isBlank c)
    (hplace : ∀ c ∈ a.getLast?, ∀ d ∈ b.head?, ¬(c.isDigit ∧ d.isDigit)) :
    Respaced (a ++ blanks ++ b) (a ++ b) := by
  unfold Respaced
  induction a with
  | nil => exact glyphs_append_of_blanks hb b
  | cons c a ih =>
    have ih : glyphs (a ++ blanks ++ b) = glyphs (a ++ b) := by
      refine ih fun d hd => hplace d ?_
      rw [List.getLast?_cons, hd]
      rfl
    -- only the character in front of the blanks could be joined to another one
    have hjoined : joined c (a ++ blanks ++ b) = joined c (a ++ b) := by
      cases a with
      | cons d a => rfl
      | nil =>
        cases blanks with
        | nil => rfl
        | cons blank blanks =>
          have hblank : joined c (blank :: (blanks ++ b)) = false := by
            refine joined_eq_false ?_
            rintro d ⟨⟩ ⟨-, hd⟩
            have hv := isBlank_of_isDigit hd
            rw [hb blank List.mem_cons_self] at hv
            cases hv
          exact hblank.trans (joined_eq_false (hplace c rfl)).symm
    show glyphs (c :: (a ++ blanks ++ b)) = glyphs (c :: (a ++ b))
    rw [glyphs, glyphs, hjoined, ih]

/-! ## Scanners -/

/-- What is read off texts that differ in blanks only: nothing, or the same value, and what is left
differs in blanks only. -/
inductive ReadAlike : Option (α × List Char) → Option (α × List Char) → Prop
  | nothing : ReadAlike none none
  | both {a : α} {rest rest' : List Char} :
    Respaced rest rest' → ReadAlike (some (a, rest)) (some (a, rest'))

namespace Scanner

/-- The scanner reads the same off texts that differ in blanks only. -/
def IgnoresSpacing (r : Scanner α) : Prop :=
  ∀ cs cs', Respaced cs cs' → ReadAlike (r cs) (r cs')

theorem IgnoresSpacing.of_none {r : Scanner α} (h : r.IgnoresSpacing) {cs cs' : List Char}
    (hcs : Respaced cs cs') (hn : r cs = none) : r cs' = none := by
  have hr := h cs cs' hcs
  rw [hn] at hr
  generalize r cs' = x at hr
  cases hr
  rfl

theorem IgnoresSpacing.of_some {r : Scanner α} (h : r.IgnoresSpacing) {cs cs' : List Char}
    (hcs : Respaced cs cs') {a : α} {rest : List Char} (hs : r cs = some (a, rest)) :
    ∃ rest', r cs' = some (a, rest') ∧ Respaced rest rest' := by
  have hr := h cs cs' hcs
  rw [hs] at hr
  generalize r cs' = x at hr
  cases hr with
  | both hrest => exact ⟨_, rfl, hrest⟩

theorem IgnoresSpacing.map {r : Scanner α} (h : r.IgnoresSpacing) (f : α → β) :
    (r.map f).IgnoresSpacing := by
  intro cs cs' hcs
  have hr := h cs cs' hcs
  unfold Scanner.map
  generalize r cs = x at hr
  generalize r cs' = x' at hr
  cases hr with
  | nothing => exact .nothing
  | both hrest => exact .both hrest

theorem IgnoresSpacing.orElse {r s : Scanner α} (hr : r.IgnoresSpacing) (hs : s.IgnoresSpacing) :
    (r.orElse s).IgnoresSpacing := by
  intro cs cs' hcs
  have hr := hr cs cs' hcs
  have hs := hs cs cs' hcs
  unfold Scanner.orElse
  generalize r cs = x at hr
  generalize r cs' = x' at hr
  cases hr with
  | nothing => exact hs
  | both hrest => exact .both hrest

theorem firstOf_cons (r : Scanner α) (rs : List (Scanner α)) :
    firstOf (r :: rs) = r.orElse (firstOf rs) := by
  funext cs
  unfold Scanner.orElse
  cases h : r cs with
  | none => rw [firstOf_cons_of_none h, Option.none_or]
  | some x => rw [firstOf_cons_of_some h, Option.some_or]

theorem IgnoresSpacing.firstOf {rs : List (Scanner α)} (h : ∀ r ∈ rs, r.IgnoresSpacing) :
    (firstOf rs).IgnoresSpacing := by
  induction rs with
  | nil => exact fun _ _ _ => .nothing
  | cons r rs ih =>
    obtain ⟨hr, hrs⟩ := List.forall_mem_cons.1 h
    rw [firstOf_cons]
    exact hr.orElse (ih hrs)

theorem many_respaced {r : Scanner α} (h : r.IgnoresSpacing) (progress : r.Progresses)
    {cs cs' : List Char} (hcs : Respaced cs cs') :
    (many r progress cs).1 = (many r progress cs').1 ∧
      Respaced (many r progress cs).2 (many r progress cs').2 := by
  induction cs using many.induct r progress generalizing cs' with
  | case1 cs hn =>
    rw [many_of_none progress hn, many_of_none progress (h.of_none hcs hn)]
    exact ⟨rfl, hcs⟩
  | case2 cs a rest hs _ ih =>
    obtain ⟨rest', hs', hrest⟩ := h.of_some hcs hs
    obtain ⟨hvalues, hleft⟩ := ih hrest
    rw [many_of_some progress hs, many_of_some progress hs']
    exact ⟨congrArg (a :: ·) hvalues, hleft⟩

/-- What is found in texts that differ in blanks only is the same. -/
theorem sweep_respaced {r : Scanner α} (h : r.IgnoresSpacing) (hblind : r.IgnoresBlanks)
    (progress : r.Progresses) {cs cs' : List Char} (hcs : Respaced cs cs') :
    sweep r progress cs = sweep r progress cs' := by
  fun_induction sweep r progress cs generalizing cs' with
  | case1 =>
    rcases hcs.skipBlanks_cases with ⟨-, hend⟩ | ⟨_, _, _, hc, -⟩
    · rw [← sweep_skipBlanks progress hblind cs', hend, sweep_nil]
    · cases hc
  | case2 c cs a rest hs _ ih =>
    obtain ⟨rest', hs', hrest⟩ := h.of_some hcs hs
    rw [sweep_of_some progress hs', ih hrest]
  | case3 c cs hn ih =>
    cases hb : isBlank c with
    | true => exact ih ((glyphs_cons_of_blank hb cs).symm.trans hcs)
    | false =>
      -- the other text passes over its blanks first, and then over the same character
      rcases hcs.skipBlanks_cases with ⟨hnil, -⟩ | ⟨d, more, more', hd, hd', -, hmore⟩
      · rw [skipBlanks_cons_of_not_blank hb] at hnil
        cases hnil
      · rw [skipBlanks_cons_of_not_blank hb] at hd
        cases hd
        have hn' : r cs' = none := h.of_none hcs hn
        rw [← hblind _ _ (skipBlanks_skipBlanks cs'), hd'] at hn'
        rw [← sweep_skipBlanks progress hblind cs', hd', sweep_of_none progress hn']
        exact ih hmore

end Scanner

/-! ## Numbers -/

/-- Where no digit stands at the head none is taken off it. -/
theorem digits_of_head {cs : List Char} (h : cs.head?.any Char.isDigit = false) :
    cs.takeWhile Char.isDigit = [] ∧ cs.dropWhile Char.isDigit = cs := by
  cases cs with
  | nil => exact ⟨rfl, rfl⟩
  | cons c cs =>
    have hc : c.isDigit = false := h
    simp [hc]

/-- Digits at the head of texts that differ in blanks only are the same, if one stands at the head
of both or of neither. -/
theorem Respaced.digits {cs cs' : List Char} (h : Respaced cs cs')
    (hhead : cs.head?.any Char.isDigit = cs'.head?.any Char.isDigit) :
    cs.takeWhile Char.isDigit = cs'.takeWhile Char.isDigit ∧
      Respaced (cs.dropWhile Char.isDigit) (cs'.dropWhile Char.isDigit) := by
  induction cs generalizing cs' with
  | nil =>
    obtain ⟨htake, hdrop⟩ := digits_of_head hhead.symm
    rw [htake, hdrop]
    exact ⟨rfl, h⟩
  | cons c cs ih =>
    cases hc : c.isDigit with
    | false =>
      have hhere : (c :: cs).head?.any Char.isDigit = false := hc
      obtain ⟨htake, hdrop⟩ := digits_of_head hhere
      obtain ⟨htake', hdrop'⟩ := digits_of_head (hhead.symm.trans hc)
      rw [htake, hdrop, htake', hdrop']
      exact ⟨rfl, h⟩
    | true =>
      have hhead : cs'.head?.any Char.isDigit = true := hhead.symm.trans hc
      cases cs' with
      | nil => cases hhead
      | cons d cs' =>
        have hd : d.isDigit = true := hhead
        obtain ⟨rfl, hjoined, hmore⟩ := h.of_cons (isBlank_of_isDigit hc) (isBlank_of_isDigit hd)
        -- the marks say whether the numbers go on
        unfold joined at hjoined
        rw [hc, Bool.true_and, Bool.true_and] at hjoined
        obtain ⟨htake, hdrop⟩ := ih hmore hjoined
        simp only [List.takeWhile_cons, List.dropWhile_cons, hc, if_true, htake, true_and]
        exact hdrop

theorem readDigits_ignoresSpacing : Scanner.IgnoresSpacing readDigits := by
  intro cs cs' h
  have hhead : (skipBlanks cs).head?.any Char.isDigit = (skipBlanks cs').head?.any Char.isDigit := by
    rcases h.skipBlanks_cases with ⟨hs, hs'⟩ | ⟨c, more, more', hs, hs', -⟩
    · rw [hs, hs']
    · rw [hs, hs']
      rfl
  obtain ⟨htake, hdrop⟩ := (respaced_skipBlanks h).digits hhead
  unfold readDigits
  dsimp only
  rw [htake]
  split
  · exact .nothing
  · exact .both hdrop

/-! ## Tokens -/

namespace Pattern

/-- The pattern is given by spellings of one character. -/
structure Single (p : Pattern) : Prop where
  listed : p.listed = true
  length : ∀ t ∈ p.spellings, t.length = 1

instance (p : Pattern) : Decidable p.Single :=
  decidable_of_iff (p.listed = true ∧ ∀ t ∈ p.spellings, t.length = 1)
    ⟨fun h => ⟨h.1, h.2⟩, fun h => ⟨h.listed, h.length⟩⟩

variable {p : Pattern}

/-- Whether a single character is found does not depend on what comes after it. -/
theorem Single.headLength?_cons (hp : p.Single) (c : Char) (more more' : List Char) :
    p.headLength? (c :: more) = p.headLength? (c :: more') := by
  have hprefix : ∀ t ∈ p.spellings, t.isPrefixOf (c :: more) = t.isPrefixOf (c :: more') := by
    intro t ht
    obtain ⟨d, rfl⟩ := List.length_eq_one_iff.1 (hp.length t ht)
    rfl
  cases p with
  | literal t => rw [headLength?, headLength?, hprefix t (List.mem_singleton_self t)]
  | anyOf ts =>
    have hfind : ∀ t ∈ ts, t.isPrefixOf (c :: more) = t.isPrefixOf (c :: more') := hprefix
    rw [headLength?, headLength?, List.find?_congr hfind]
  | regex r => cases hp.listed

theorem Single.length_eq_one (hp : p.Single) {cs : List Char} {n : Nat}
    (h : p.headLength? cs = some n) : n = 1 := by
  cases p with
  | literal t =>
    obtain ⟨-, hn⟩ := Option.ite_none_right_eq_some.1 h
    cases hn
    exact hp.length t (List.mem_singleton_self t)
  | anyOf ts =>
    obtain ⟨t, ht, rfl⟩ := Option.map_eq_some_iff.1 h
    exact hp.length t (List.mem_of_find?_eq_some ht)
  | regex r => cases hp.listed

theorem read_ignoresSpacing (hp : p.Single) : Scanner.IgnoresSpacing p.read := by
  intro cs cs' h
  unfold read
  rcases h.skipBlanks_cases with ⟨hs, hs'⟩ | ⟨c, more, more', hs, hs', -, hmore⟩
  · -- nothing is read off the empty text
    have hnil := p.read_progresses.nil
    unfold read at hnil
    rw [hs, hs']
    rw [show skipBlanks [] = [] from rfl] at hnil
    rw [hnil]
    exact .nothing
  · rw [hs, hs', match?, match?, hp.headLength?_cons c more more']
    cases hn : p.headLength? (c :: more') with
    | none => exact .nothing
    | some n =>
      cases hp.length_eq_one hn
      exact .both hmore

end Pattern

/-! ## Length texts -/

section

variable {tokens : LengthTokens} (hp : ∀ t, (tokens.pattern t).Single)

include hp

theorem LengthTokens.readNumbers_respaced {cs cs' : List Char} (h : Respaced cs cs') :
    (tokens.readNumbers cs).1 = (tokens.readNumbers cs').1 ∧
      Respaced (tokens.readNumbers cs).2 (tokens.readNumbers cs').2 := by
  have hjoin : Scanner.IgnoresSpacing tokens.join.read := Pattern.read_ignoresSpacing (hp .join)
  induction cs using LengthTokens.readNumbers.induct tokens generalizing cs' with
  | case1 cs hn =>
    rw [readNumbers_of_none hn, readNumbers_of_none (readDigits_ignoresSpacing.of_none h hn)]
    exact ⟨rfl, h⟩
  | case2 cs digits rest hs _ hj =>
    obtain ⟨rest', hs', hrest⟩ := readDigits_ignoresSpacing.of_some h hs
    rw [readNumbers_of_last hs hj, readNumbers_of_last hs' (hjoin.of_none hrest hj)]
    exact ⟨rfl, hrest⟩
  | case3 cs digits rest hs _ join more hj _ ih =>
    obtain ⟨rest', hs', hrest⟩ := readDigits_ignoresSpacing.of_some h hs
    obtain ⟨more', hj', hmore⟩ := hjoin.of_some hrest hj
    obtain ⟨hnumbers, hleft⟩ := ih hmore
    rw [readNumbers_of_join hs hj, readNumbers_of_join hs' hj', hnumbers]
    exact ⟨rfl, hleft⟩

theorem LengthTokens.readSuffix_ignoresSpacing : Scanner.IgnoresSpacing tokens.readSuffix :=
  ((Pattern.read_ignoresSpacing (hp .hold)).map _).orElse
    ((Pattern.read_ignoresSpacing (hp .dot)).map _)

theorem LengthText.read_respaced {cs cs' : List Char} (h : Respaced cs cs') :
    (LengthText.read tokens cs).1 = (LengthText.read tokens cs').1 ∧
      Respaced (LengthText.read tokens cs).2 (LengthText.read tokens cs').2 := by
  obtain ⟨hnumbers, hrest⟩ := LengthTokens.readNumbers_respaced hp h
  obtain ⟨hsuffixes, hleft⟩ := Scanner.many_respaced (LengthTokens.readSuffix_ignoresSpacing hp)
    tokens.readSuffix_progresses hrest
  exact ⟨congrArg₂ LengthText.mk hnumbers hsuffixes, hleft⟩

theorem LengthTokens.readTimed_ignoresSpacing {p : Pattern} (h : Scanner.IgnoresSpacing p.read)
    (command : LengthText → α) : Scanner.IgnoresSpacing (tokens.readTimed p command) := by
  intro cs cs' hcs
  have hr := h cs cs' hcs
  unfold readTimed
  generalize p.read cs = x at hr
  generalize p.read cs' = x' at hr
  cases hr with
  | nothing => exact .nothing
  | @both m rest rest' hrest =>
    obtain ⟨hlength, hleft⟩ := LengthText.read_respaced hp hrest
    dsimp only [Option.map_some]
    rw [hlength]
    exact .both hleft

end

end MusicMacro
