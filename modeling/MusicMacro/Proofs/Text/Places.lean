import MusicMacro.Proofs.Text.Suffix
import MusicMacro.Proofs.Text.Sweep

/-!
# Where values stand

A sweep finds values at places of the text. A place is given by the text from there on, without the
blanks in front, so that the value could be read there if nothing came before it.

* `Scanner.exists_of_mem_sweep` — every value that is found is read at some place.
* `Scanner.sightings` — the values with their places.
* `map_fst_sightings`, `read_of_mem_sightings`, `sightings_pairwise` — the values are those of the
  sweep, each can be read at its place, and the places come one after the other.
-/

namespace MusicMacro

variable {α : Type}

namespace Scanner

variable {r : Scanner α}

/-! ## Single values -/

/-- Reads a value with its place. -/
def located (r : Scanner α) : Scanner (α × List Char) := fun cs =>
  (r cs).map fun (a, rest) => ((a, skipBlanks cs), rest)

theorem located_eq_some {cs place rest : List Char} {a : α} :
    located r cs = some ((a, place), rest) ↔ r cs = some (a, rest) ∧ place = skipBlanks cs := by
  unfold located
  cases r cs with
  | none => simp
  | some p =>
    simp only [Option.map_some, Option.some.injEq, Prod.ext_iff]
    constructor
    · rintro ⟨⟨ha, hplace⟩, hrest⟩
      exact ⟨⟨ha, hrest⟩, hplace.symm⟩
    · rintro ⟨⟨ha, hrest⟩, hplace⟩
      exact ⟨⟨ha, hplace.symm⟩, hrest⟩

theorem Progresses.located (h : r.Progresses) : (located r).Progresses := by
  rintro cs ⟨a, place⟩ rest hr
  exact h cs a rest (located_eq_some.1 hr).1

theorem Consumes.located (h : r.Consumes) : (located r).Consumes := by
  rintro cs ⟨a, place⟩ rest hr
  exact h cs a rest (located_eq_some.1 hr).1

/-! ## Whole texts -/

variable (progress : r.Progresses)

/-- A value that is found is read somewhere in the text. -/
theorem exists_of_mem_sweep (hc : r.Consumes) {cs : List Char} {a : α}
    (h : a ∈ sweep r progress cs) : ∃ cs' rest, cs' <:+ cs ∧ r cs' = some (a, rest) := by
  fun_induction sweep r progress cs with
  | case1 => cases h
  | case2 c cs b rest hb _ ih =>
    rcases List.mem_cons.1 h with rfl | h
    · exact ⟨c :: cs, rest, List.suffix_rfl, hb⟩
    · obtain ⟨cs', rest', hsuffix, hr⟩ := ih h
      exact ⟨cs', rest', hsuffix.trans (hc _ _ _ hb), hr⟩
  | case3 c cs hn ih =>
    obtain ⟨cs', rest', hsuffix, hr⟩ := ih h
    exact ⟨cs', rest', hsuffix.trans (List.suffix_cons c cs), hr⟩

/-- The values that a scanner finds in a text, with their places. -/
def sightings (r : Scanner α) (progress : r.Progresses) (cs : List Char) :
    List (α × List Char) := sweep (located r) progress.located cs

theorem map_fst_sightings (cs : List Char) :
    (sightings r progress cs).map Prod.fst = sweep r progress cs := by
  refine eq_sweep progress (f := fun cs => (sightings r progress cs).map Prod.fst) ?_ ?_ ?_ cs
  · show (sweep _ _ []).map Prod.fst = []
    rw [sweep_nil]
    rfl
  · intro c cs a rest h
    have hl : located r (c :: cs) = some ((a, skipBlanks (c :: cs)), rest) :=
      located_eq_some.2 ⟨h, rfl⟩
    show (sweep _ _ (c :: cs)).map Prod.fst = _
    rw [sweep_of_some _ hl]
    rfl
  · intro c cs h
    have hl : located r (c :: cs) = none := by
      rw [located, h]
      rfl
    show (sweep _ _ (c :: cs)).map Prod.fst = _
    rw [sweep_of_none _ hl]
    rfl

variable (hc : r.Consumes) (hblind : r.IgnoresBlanks)

include hc hblind

/-- A value can be read at its place. -/
theorem read_of_mem_sightings {cs : List Char} {p : α × List Char}
    (h : p ∈ sightings r progress cs) :
    p.2 <:+ cs ∧ skipBlanks p.2 = p.2 ∧ ∃ rest, r p.2 = some (p.1, rest) := by
  obtain ⟨cs', rest, hsuffix, hr⟩ := exists_of_mem_sweep _ hc.located h
  obtain ⟨hr, hplace⟩ := located_eq_some.1 hr
  have hskip := skipBlanks_skipBlanks cs'
  rw [hplace]
  exact ⟨(skipBlanks_suffix cs').trans hsuffix, hskip, rest, (hblind _ _ hskip).trans hr⟩

/-- The places come one after the other. -/
theorem sightings_pairwise (cs : List Char) :
    (sightings r progress cs).Pairwise fun p q => q.2.length < p.2.length := by
  unfold sightings
  fun_induction sweep (located r) progress.located cs with
  | case1 => exact .nil
  | case2 c cs p rest hp _ ih =>
    refine List.pairwise_cons.2 ⟨fun q hq => ?_, ih⟩
    obtain ⟨hr, hplace⟩ := located_eq_some.1 hp
    -- the value is read from its own place on, so that less is left behind it
    have hr : r p.2 = some (p.1, rest) :=
      (hblind _ _ (hplace ▸ skipBlanks_skipBlanks _)).trans hr
    have hlater := (read_of_mem_sightings progress hc hblind hq).1
    exact hlater.length_le.trans_lt (progress _ _ _ hr)
  | case3 c cs _ ih => exact ih

end Scanner

end MusicMacro
