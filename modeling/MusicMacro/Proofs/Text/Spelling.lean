import Mathlib.Data.List.Nodup
import MusicMacro.Text.Digit
import MusicMacro.Text.Pattern

/-!
# Written tokens and numbers

What is written with blanks in front is read off again, whatever comes after it, as long as the next
character cannot belong to it.

* `Next` — what may come next in a text, blanks aside.
* `Pattern.Spelt`, `Numeral` — a token, or a number, is written.
* `Pattern.Plain`, `Apart` — the first character of a token tells which token it is, and which
  spelling.
* `Pattern.read_append`, `Pattern.read_eq_none` — a token is read where it is written, and nowhere
  else.
* `Scanner.many_append` — so is a list of them.
-/

namespace MusicMacro

/-! ## What comes next -/

/-- The first character of a text that is no blank, if there is one, satisfies `P`. -/
def Next (P : Char → Prop) (cs : List Char) : Prop := ∀ c ∈ (skipBlanks cs).head?, P c

theorem skipBlanks_cons_of_blank {c : Char} (h : isBlank c = true) (cs : List Char) :
    skipBlanks (c :: cs) = skipBlanks cs := by
  rw [skipBlanks, List.dropWhile_cons, if_pos h]
  rfl

theorem skipBlanks_cons_of_not_blank {c : Char} (h : isBlank c = false) (cs : List Char) :
    skipBlanks (c :: cs) = c :: cs := by
  rw [skipBlanks, List.dropWhile_cons, h]
  rfl

/-- Blanks disappear up to the first character that is none. -/
theorem skipBlanks_append_of_head {blanks more : List Char} (hb : ∀ b ∈ blanks, isBlank b)
    (hm : ∀ d ∈ more.head?, isBlank d = false) : skipBlanks (blanks ++ more) = more := by
  rw [skipBlanks_append hb]
  cases more with
  | nil => rfl
  | cons d more => exact skipBlanks_cons_of_not_blank (hm d rfl) more

/-- Characters are dropped up to the first one that need not be. -/
theorem head_dropWhile (p : Char → Bool) (cs : List Char) :
    ∀ c ∈ (cs.dropWhile p).head?, p c = false := by
  intro c hc
  have hhead := List.head?_dropWhile_not p cs
  rw [Option.mem_def.1 hc] at hhead
  exact hhead

theorem isBlank_of_skipBlanks {cs more : List Char} {c : Char} (h : skipBlanks cs = c :: more) :
    isBlank c = false :=
  head_dropWhile isBlank cs c (congrArg List.head? h)

theorem isBlank_of_mem_leadingBlanks {c : Char} {cs : List Char} (h : c ∈ leadingBlanks cs) :
    isBlank c = true := List.all_eq_true.1 List.all_takeWhile c h

theorem skipBlanks_skipBlanks (cs : List Char) : skipBlanks (skipBlanks cs) = skipBlanks cs := by
  have hblanks : ∀ c ∈ leadingBlanks cs, isBlank c := fun _ => isBlank_of_mem_leadingBlanks
  rw [← skipBlanks_append hblanks, leadingBlanks_append_skipBlanks]

theorem isBlank_of_isDigit {c : Char} (h : c.isDigit = true) : isBlank c = false := by
  have hd : 48 ≤ c.toNat ∧ c.toNat ≤ 57 := by
    simp only [Char.isDigit, Bool.and_eq_true, decide_eq_true_eq, ge_iff_le,
      UInt32.le_iff_toNat_le] at h
    exact h
  rw [Bool.eq_false_iff]
  intro hb
  simp only [isBlank, blankRanges, List.any_cons, List.any_nil, Bool.or_eq_true, Bool.and_eq_true,
    decide_eq_true_eq, Bool.false_eq_true, or_false] at hb
  omega

namespace Next

variable {P Q : Char → Prop} {cs : List Char}

theorem mono (h : Next P cs) (hPQ : ∀ c, P c → Q c) : Next Q cs := fun c hc => hPQ c (h c hc)

theorem nil : Next P [] := by
  intro c hc
  cases hc

theorem of_blanks {blanks : List Char} (hb : ∀ c ∈ blanks, isBlank c) (h : Next P cs) :
    Next P (blanks ++ cs) := by
  intro c hc
  rw [skipBlanks_append hb] at hc
  exact h c hc

theorem cons_of_blank {c : Char} (hb : isBlank c = true) (h : Next P cs) : Next P (c :: cs) := by
  intro d hd
  rw [skipBlanks_cons_of_blank hb] at hd
  exact h d hd

theorem cons_of_not_blank {c : Char} (hb : isBlank c = false) (h : P c) (cs : List Char) :
    Next P (c :: cs) := by
  intro d hd
  rw [skipBlanks_cons_of_not_blank hb] at hd
  cases hd
  exact h

/-- The next character stands at the head of the text, if it is no blank. -/
theorem of_head? (h : Next P cs) {c : Char} (hc : c ∈ cs.head?) (hb : isBlank c = false) : P c := by
  cases cs with
  | nil => cases hc
  | cons d cs =>
    cases hc
    exact h c (by rw [skipBlanks_cons_of_not_blank hb]; exact rfl)

end Next

/-! ## Tokens -/

namespace Pattern

/-- Whether the pattern is given by spellings, and not by a regular expression. -/
def listed : Pattern → Bool
  | literal _ | anyOf _ => true
  | regex _ => false

/-- The spellings that are listed. -/
def spellings : Pattern → List (List Char)
  | literal t => [t]
  | anyOf ts => ts
  | regex _ => []

/-- The characters with which the spellings begin. -/
def heads (p : Pattern) : List Char := p.spellings.filterMap List.head?

/-- The text is a spelling of the token, behind any blanks. -/
def Spelt (p : Pattern) (text : List Char) : Prop :=
  ∃ blanks spelling, (∀ c ∈ blanks, isBlank c) ∧ spelling ∈ p.spellings ∧ text = blanks ++ spelling

/-- The first character tells which spelling it is, and is neither a blank nor a digit. -/
structure Plain (p : Pattern) : Prop where
  listed : p.listed = true
  nonempty : ∀ t ∈ p.spellings, t ≠ []
  distinct : (p.spellings.map List.head?).Nodup
  visible : ∀ c ∈ p.heads, isBlank c = false ∧ c.isDigit = false

instance (p : Pattern) : Decidable p.Plain :=
  decidable_of_iff
    (p.listed = true ∧ (∀ t ∈ p.spellings, t ≠ []) ∧ (p.spellings.map List.head?).Nodup ∧
      (p.heads.all fun c => !isBlank c && !c.isDigit) = true) <| by
    have hvisible : (p.heads.all fun c => !isBlank c && !c.isDigit) = true ↔
        ∀ c ∈ p.heads, isBlank c = false ∧ c.isDigit = false := by
      simp only [List.all_eq_true, Bool.and_eq_true, Bool.not_eq_true']
    rw [hvisible]
    exact ⟨fun h => ⟨h.1, h.2.1, h.2.2.1, h.2.2.2⟩,
      fun h => ⟨h.listed, h.nonempty, h.distinct, h.visible⟩⟩

theorem exists_spelt {p : Pattern} (h : p.spellings ≠ []) : ∃ text, p.Spelt text := by
  obtain ⟨t, ht⟩ := List.exists_mem_of_ne_nil _ h
  exact ⟨t, [], t, nofun, ht, rfl⟩

theorem mem_heads {p : Pattern} {c : Char} :
    c ∈ p.heads ↔ ∃ t ∈ p.spellings, t.head? = some c := List.mem_filterMap

variable {p : Pattern}

/-- No spelling begins with a character that stands in none. -/
theorem not_mem_heads {c : Char} (h : ∀ t ∈ p.spellings, c ∉ t) : c ∉ p.heads := by
  intro hc
  obtain ⟨t, ht, hhead⟩ := mem_heads.1 hc
  exact h t ht (List.mem_of_mem_head? hhead)

/-- A spelling is a character that begins a spelling, and more. -/
theorem Plain.eq_cons (hp : p.Plain) {t : List Char} (ht : t ∈ p.spellings) :
    ∃ c u, t = c :: u ∧ c ∈ p.heads := by
  cases t with
  | nil => exact absurd rfl (hp.nonempty [] ht)
  | cons c u => exact ⟨c, u, rfl, mem_heads.2 ⟨c :: u, ht, rfl⟩⟩

/-- No spelling but the one that is written stands at the head of a text. -/
theorem Plain.eq_of_prefix (hp : p.Plain) {t t' rest : List Char} (ht : t ∈ p.spellings)
    (ht' : t' ∈ p.spellings) (hpre : t' <+: t ++ rest) : t' = t := by
  obtain ⟨c, u, rfl, -⟩ := hp.eq_cons ht
  obtain ⟨c', u', rfl, -⟩ := hp.eq_cons ht'
  have hc : c' = c := (List.cons_prefix_cons.1 hpre).1
  exact List.inj_on_of_nodup_map hp.distinct ht' ht (congrArg some hc)

theorem Plain.headLength?_append (hp : p.Plain) {t : List Char} (ht : t ∈ p.spellings)
    (rest : List Char) : p.headLength? (t ++ rest) = some t.length := by
  cases p with
  | literal u =>
    rw [List.mem_singleton.1 ht, headLength?, if_pos]
    exact List.isPrefixOf_iff_prefix.2 (List.prefix_append u rest)
  | anyOf ts =>
    have hfind : ts.find? (·.isPrefixOf (t ++ rest)) = some t := by
      cases hf : ts.find? (·.isPrefixOf (t ++ rest)) with
      | none =>
        have hno := List.find?_eq_none.1 hf t ht
        exact absurd (List.isPrefixOf_iff_prefix.2 (List.prefix_append t rest)) hno
      | some t' =>
        have hpre := List.find?_some hf
        rw [hp.eq_of_prefix ht (List.mem_of_find?_eq_some hf) (List.isPrefixOf_iff_prefix.1 hpre)]
    rw [headLength?, hfind]
    rfl
  | regex r => cases hp.listed

/-- A token that is written is read. -/
theorem read_append (hp : p.Plain) {text : List Char} (h : p.Spelt text) (rest : List Char) :
    ∃ m, p.read (text ++ rest) = some (m, rest) := by
  obtain ⟨blanks, t, hb, ht, rfl⟩ := h
  obtain ⟨c, u, rfl, hc⟩ := hp.eq_cons ht
  refine ⟨c :: u, read_eq_some_iff.2 ?_⟩
  rw [List.append_assoc, skipBlanks_append hb, List.cons_append,
    skipBlanks_cons_of_not_blank (hp.visible c hc).1, ← List.cons_append, match_eq_ok_iff]
  exact ⟨_, hp.headLength?_append ht rest, List.take_left, List.drop_left, List.cons_ne_nil c u⟩

/-- A token is not read where none of its spellings can begin. -/
theorem read_eq_none (hp : p.Plain) {cs : List Char} (h : Next (· ∉ p.heads) cs) :
    p.read cs = none := by
  rw [Option.eq_none_iff_forall_not_mem]
  rintro ⟨m, rest⟩ hr
  obtain ⟨n, hn, -, -, -⟩ := match_eq_ok_iff.1 (read_eq_some_iff.1 hr)
  have hpre : ∃ t ∈ p.spellings, t <+: skipBlanks cs := by
    cases p with
    | literal u =>
      rw [headLength?] at hn
      split at hn
      · next hu => exact ⟨u, List.mem_singleton_self u, List.isPrefixOf_iff_prefix.1 hu⟩
      · cases hn
    | anyOf ts =>
      obtain ⟨t, ht, -⟩ := Option.map_eq_some_iff.1 hn
      have hpre := List.find?_some ht
      exact ⟨t, List.mem_of_find?_eq_some ht, List.isPrefixOf_iff_prefix.1 hpre⟩
    | regex r => cases hp.listed
  obtain ⟨t, ht, tail, htail⟩ := hpre
  obtain ⟨c, u, rfl, hc⟩ := hp.eq_cons ht
  exact h c (by rw [← htail]; rfl) hc

theorem read_congr (p : Pattern) {cs cs' : List Char} (h : skipBlanks cs = skipBlanks cs') :
    p.read cs = p.read cs' := by
  rw [read, read, h]

/-- A text begins as the token does that is written there. -/
theorem Spelt.next (hp : p.Plain) {text : List Char} (h : p.Spelt text) {P : Char → Prop}
    (hP : ∀ c ∈ p.heads, P c) (rest : List Char) : Next P (text ++ rest) := by
  obtain ⟨blanks, t, hb, ht, rfl⟩ := h
  obtain ⟨c, u, rfl, hc⟩ := hp.eq_cons ht
  rw [List.append_assoc]
  exact .of_blanks hb (.cons_of_not_blank (hp.visible c hc).1 (hP c hc) _)

end Pattern

/-- The first character of a token tells which token it is, and which spelling. -/
structure Apart {ι : Type} (pattern : ι → Pattern) : Prop where
  plain : ∀ i, (pattern i).Plain
  apart : ∀ i j c, c ∈ (pattern i).heads → c ∈ (pattern j).heads → i = j

/-- Whether tokens are apart is seen from the characters with which they begin. -/
theorem apart_iff {ι : Type} [DecidableEq ι] {pattern : ι → Pattern} :
    Apart pattern ↔ (∀ i, (pattern i).Plain) ∧
      ∀ i j, ((pattern i).heads.all fun c => decide (c ∈ (pattern j).heads → i = j)) = true := by
  simp only [List.all_eq_true, decide_eq_true_eq]
  exact ⟨fun h => ⟨h.plain, h.apart⟩, fun h => ⟨h.1, h.2⟩⟩

theorem Apart.comp {ι κ : Type} {pattern : ι → Pattern} (h : Apart pattern) {f : κ → ι}
    (hf : ∀ k l, f k = f l → k = l) : Apart (fun k => pattern (f k)) :=
  ⟨fun k => h.plain (f k), fun k l c hk hl => hf k l (h.apart _ _ c hk hl)⟩

/-- What is read begins as the token does. -/
theorem Pattern.Plain.exists_head {p : Pattern} (hp : p.Plain) {cs m rest : List Char}
    (h : p.read cs = some (m, rest)) : ∃ c ∈ (skipBlanks cs).head?, c ∈ p.heads := by
  by_contra hno
  have hn : p.read cs = none := read_eq_none hp fun c hc hmem => hno ⟨c, hc, hmem⟩
  rw [hn] at h
  cases h

/-- A token that is written is not read as another. -/
theorem Apart.read_other {ι : Type} {pattern : ι → Pattern} (h : Apart pattern) {i j : ι}
    (hij : i ≠ j) {text : List Char} (hs : (pattern i).Spelt text) (rest : List Char) :
    (pattern j).read (text ++ rest) = none :=
  Pattern.read_eq_none (h.plain j)
    (hs.next (h.plain i) (fun c hi hj => hij (h.apart i j c hi hj)) rest)

/-! ## Numbers -/

/-- The text writes a number in digits, leading zeros among them, behind any blanks. -/
def Numeral (n : Nat) (text : List Char) : Prop :=
  ∃ blanks digits, (∀ c ∈ blanks, isBlank c) ∧ digits ≠ [] ∧ (∀ c ∈ digits, c.isDigit) ∧
    digitsValue digits = n ∧ text = blanks ++ digits

/-- Every number can be written. -/
theorem exists_numeral (n : Nat) : ∃ text, Numeral n text := by
  refine ⟨Nat.toDigits 10 n, [], Nat.toDigits 10 n, nofun, Nat.toDigits_ne_nil, ?_, ?_, rfl⟩
  · intro c hc
    exact Nat.isDigit_of_mem_toDigits (by decide) (by decide) hc
  · rw [digitsValue, ← Nat.ofDigitChars_eq_foldl]
    exact Nat.ofDigitChars_ten_toDigits

/-- No digit begins the text, if none comes next behind the blanks. -/
theorem Next.head_not_digit {cs : List Char} (h : Next (fun c => c.isDigit = false) cs) :
    ∀ c ∈ cs.head?, c.isDigit = false := by
  intro c hc
  by_contra hd
  rw [Bool.not_eq_false] at hd
  exact Bool.noConfusion (hd.symm.trans (h.of_head? hc (isBlank_of_isDigit hd)))

theorem takeWhile_digits {digits rest : List Char} (hd : ∀ c ∈ digits, c.isDigit)
    (hr : ∀ c ∈ rest.head?, c.isDigit = false) :
    (digits ++ rest).takeWhile Char.isDigit = digits ∧
      (digits ++ rest).dropWhile Char.isDigit = rest := by
  rw [List.takeWhile_append_of_pos hd, List.dropWhile_append_of_pos hd]
  cases rest with
  | nil => exact ⟨List.append_nil _, rfl⟩
  | cons c rest =>
    rw [List.takeWhile_cons, List.dropWhile_cons, hr c rfl]
    exact ⟨List.append_nil _, rfl⟩

/-- A number that is written is read, up to its last digit. -/
theorem readDigits_append {n : Nat} {text rest : List Char} (h : Numeral n text)
    (hr : Next (fun c => c.isDigit = false) rest) :
    ∃ digits, readDigits (text ++ rest) = some (digits, rest) ∧ digitsValue digits = n := by
  obtain ⟨blanks, digits, hb, hne, hd, hv, rfl⟩ := h
  obtain ⟨htake, hdrop⟩ := takeWhile_digits hd hr.head_not_digit
  refine ⟨digits, readDigits_eq_some_iff.2 ?_, hv⟩
  have hskip : skipBlanks (blanks ++ digits ++ rest) = digits ++ rest := by
    rw [List.append_assoc, skipBlanks_append hb]
    cases digits with
    | nil => exact absurd rfl hne
    | cons c u =>
      exact skipBlanks_cons_of_not_blank (isBlank_of_isDigit (hd c List.mem_cons_self)) _
  rw [hskip, htake, hdrop]
  exact ⟨hne, rfl, rfl⟩

/-- No number is read where no digit comes next. -/
theorem readDigits_eq_none {cs : List Char} (h : Next (fun c => c.isDigit = false) cs) :
    readDigits cs = none := by
  rw [Option.eq_none_iff_forall_not_mem]
  rintro ⟨digits, rest⟩ hr
  obtain ⟨hne, heq, -⟩ := readDigits_eq_some_iff.1 hr
  cases hs : skipBlanks cs with
  | nil => exact hne (by rw [heq, hs]; rfl)
  | cons c u =>
    have hc : c.isDigit = false := h c (by rw [hs]; rfl)
    exact hne (by rw [heq, hs, List.takeWhile_cons, hc]; rfl)

theorem Numeral.next {n : Nat} {text : List Char} (h : Numeral n text) {P : Char → Prop}
    (hP : ∀ c, c.isDigit → P c) (rest : List Char) : Next P (text ++ rest) := by
  obtain ⟨blanks, digits, hb, hne, hd, -, rfl⟩ := h
  rw [List.append_assoc]
  cases digits with
  | nil => exact absurd rfl hne
  | cons c u =>
    have hc := hd c List.mem_cons_self
    exact .of_blanks hb (.cons_of_not_blank (isBlank_of_isDigit hc) (hP c hc) _)

/-! ## Lists -/

/-- The text writes the values of a list, one after the other, each as `W` says. -/
inductive Each {α : Type} (W : α → List Char → Prop) : List α → List Char → Prop
  | nil : Each W [] []
  | cons {x : α} {xs : List α} {text more : List Char} :
    W x text → Each W xs more → Each W (x :: xs) (text ++ more)

theorem Each.exists_text {α : Type} {W : α → List Char → Prop} (h : ∀ x, ∃ text, W x text)
    (xs : List α) : ∃ text, Each W xs text := by
  induction xs with
  | nil => exact ⟨[], .nil⟩
  | cons x xs ih =>
    obtain ⟨a, ha⟩ := h x
    obtain ⟨b, hb⟩ := ih
    exact ⟨a ++ b, .cons ha hb⟩

theorem Each.next {α : Type} {W : α → List Char → Prop} {xs : List α} {text rest : List Char}
    (h : Each W xs text) {P : Char → Prop} (hW : ∀ x a more, W x a → Next P (a ++ more))
    (hr : Next P rest) : Next P (text ++ rest) := by
  cases h with
  | nil => exact hr
  | cons hx _ =>
    rw [List.append_assoc]
    exact hW _ _ _ hx

namespace Scanner

variable {α : Type}

/-- Values that are written one after the other are read one after the other. -/
theorem many_append {W : α → List Char → Prop} {r : Scanner α} (progress : r.Progresses)
    (hW : ∀ x a more, W x a → r (a ++ more) = some (x, more)) {xs : List α}
    {text rest : List Char} (h : Each W xs text) (hr : r rest = none) :
    many r progress (text ++ rest) = (xs, rest) := by
  induction h with
  | nil => exact many_of_none progress hr
  | cons hx _ ih => rw [List.append_assoc, many_of_some progress (hW _ _ _ hx), ih]

theorem map_of_none {β : Type} {r : Scanner α} {f : α → β} {cs : List Char} (h : r cs = none) :
    r.map f cs = none := by
  rw [map, h]
  rfl

theorem firstOf_cons_of_some {r : Scanner α} {rs : List (Scanner α)} {cs : List Char}
    {x : α × List Char} (h : r cs = some x) : firstOf (r :: rs) cs = some x := by
  rw [firstOf, List.findSome?_cons, h]

theorem firstOf_cons_of_none {r : Scanner α} {rs : List (Scanner α)} {cs : List Char}
    (h : r cs = none) : firstOf (r :: rs) cs = firstOf rs cs := by
  rw [firstOf, List.findSome?_cons, h]
  rfl

theorem firstOf_congr {rs : List (Scanner α)} {cs cs' : List Char} (h : ∀ r ∈ rs, r cs = r cs') :
    firstOf rs cs = firstOf rs cs' := by
  induction rs with
  | nil => rfl
  | cons r rs ih =>
    have ih := ih fun r' hr' => h r' (List.mem_cons_of_mem _ hr')
    have hr := h r List.mem_cons_self
    cases hc : r cs' with
    | some x => rw [firstOf_cons_of_some (hr.trans hc), firstOf_cons_of_some hc]
    | none => rw [firstOf_cons_of_none (hr.trans hc), firstOf_cons_of_none hc, ih]

/-- What one of several scanners reads is read, if none of the others reads anything else. -/
theorem firstOf_eq_some {rs : List (Scanner α)} {r : Scanner α} {cs : List Char}
    {x : α × List Char} (hr : r ∈ rs) (hx : r cs = some x)
    (ho : ∀ r' ∈ rs, r' cs = some x ∨ r' cs = none) : firstOf rs cs = some x := by
  cases h : firstOf rs cs with
  | none => exact absurd (List.findSome?_eq_none_iff.1 h r hr) (by rw [hx]; exact nofun)
  | some y =>
    obtain ⟨r', hr', hy⟩ := List.exists_of_findSome?_eq_some h
    rcases ho r' hr' with hx' | hn
    · rw [← hy, hx']
    · rw [hn] at hy
      cases hy

theorem firstOf_eq_none {rs : List (Scanner α)} {cs : List Char} (h : ∀ r ∈ rs, r cs = none) :
    firstOf rs cs = none := List.findSome?_eq_none_iff.2 h

end Scanner

end MusicMacro
