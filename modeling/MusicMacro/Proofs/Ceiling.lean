import MusicMacro.Proofs.Recital

/-!
# Ceilings

The ceiling on what may be queued says how long a production waits, and nothing more. Whatever it
is, the same phrases are scheduled at the same times, one after the other from time zero on, and the
same file is written.

* `Options.setup_arrange_ceiling` — another ceiling changes nothing in a setup but the ceiling.
* `Options.check_of_arrange` — options with a valid ceiling have a setup that is in order.
* `Options.exists_recital` — a production recites its score back to back from time zero on.
* `Folder.result_produce`, `Folder.folder_produce` — what it comes to, and what it leaves.
* `ceiling_unheard` — two ceilings, one production.
-/

namespace MusicMacro

variable {τ σ : Type}

/-! ## Setups -/

namespace Options

variable [Scalar σ] [Dyadic σ]

/-- Options have a setup if all their sounds can be read. -/
theorem setup_arrange_eq_ok_iff [Scalar τ] {o : Options τ} {read : Reader} {setup : Setup τ σ} :
    (arrange read o).setup = .ok setup ↔
      ∃ drums instruments,
        (o.drums.map fun d => (Loading.ofChoice read d.sound : Loading σ)).mapM (·.result) =
          .ok drums ∧
        (o.instruments.map (Loading.ofChoice read)).mapM (·.result) = .ok instruments ∧
        setup = o.setup drums instruments := by
  rw [arrange]
  dsimp only
  cases (o.drums.map fun d => (Loading.ofChoice read d.sound : Loading σ)).mapM (·.result) with
  | error e => exact ⟨nofun, fun ⟨_, _, h, _⟩ => nomatch h⟩
  | ok drums =>
    cases (o.instruments.map (Loading.ofChoice read : _ → Loading σ)).mapM (·.result) with
    | error e => exact ⟨nofun, fun ⟨_, _, _, h, _⟩ => nomatch h⟩
    | ok instruments =>
      constructor
      · intro h
        exact ⟨drums, instruments, rfl, rfl, (Except.ok.inj h).symm⟩
      · rintro ⟨drums', instruments', h, h', rfl⟩
        cases h
        cases h'
        rfl

/-- Another ceiling changes nothing in a setup but the ceiling. -/
theorem setup_arrange_ceiling [Scalar τ] {o : Options τ} {read : Reader} {setup : Setup τ σ}
    (h : (arrange read o).setup = .ok setup) (ceiling : Ceiling τ) :
    (arrange read { o with maxQueued := ceiling }).setup =
      .ok { setup with maxQueued := ceiling } := by
  obtain ⟨drums, instruments, hdrums, hinstruments, rfl⟩ := setup_arrange_eq_ok_iff.1 h
  exact setup_arrange_eq_ok_iff.2 ⟨drums, instruments, hdrums, hinstruments, rfl⟩

/-- Options with a valid ceiling have a setup that is in order. -/
theorem check_of_arrange {o : Options Rat} {read : Reader} {setup : Setup Rat σ}
    (h : (arrange read o).setup = .ok setup) (hv : o.maxQueued.isValid) :
    setup.check = .ok () := by
  obtain ⟨drums, instruments, -, -, rfl⟩ := setup_arrange_eq_ok_iff.1 h
  refine (Setup.check_eq_ok_iff _).2 ⟨?_, hv, Nat.succ_ne_zero 119, ?_, ?_⟩
  · show instrumentsFrom instruments ≠ []
    rw [instrumentsFrom]
    split
    · exact List.cons_ne_nil _ _
    · next hne => exact fun heq => hne (List.isEmpty_iff.2 heq)
  · show (0 : Rat) ≤ 1 / ((2 : Nat) : Rat)
    norm_num
  · show 1 / ((2 : Nat) : Rat) ≤ 1
    norm_num

end Options

/-! ## Productions -/

section

variable [Scalar σ] [Circular σ] [Tuned Rat] [Narrow Rat σ] [Dyadic σ]

omit [Tuned Rat] [Dyadic σ] in
/-- What is written of a timeline is settled by its entries. -/
theorem Timeline.produce_congr {t t' : Timeline Rat σ} (h : t'.entries = t.entries) (rate : Nat)
    (path : String) : t'.produce rate path = t.produce rate path := by
  rw [produce, produce, render?, render?, render, render, Timeline.finish, Timeline.finish, h]

omit [Tuned Rat] [Dyadic σ] in
theorem Timeline.result_produce (t : Timeline Rat σ) (rate : Nat) (path : String) :
    (t.produce rate path).result =
      match t.render? rate with
      | none => .error .tooLong
      | some samples => .ok ⟨samples, rate, t.finish⟩ := by
  rw [produce]
  cases t.render? rate <;> rfl

namespace Options

/-- The fragments of the chunks. -/
def fragments (o : Options τ) : List (List (List Char)) :=
  o.chunks.map fun chunk => splitVoices chunk.toList

/-- A production recites its score back to back from time zero on. -/
theorem exists_recital {o : Options Rat} {read : Reader} {setup : Setup Rat σ}
    (h : (arrange read o).setup = .ok setup) (hv : o.maxQueued.isValid) :
    ∃ s₀ s : Sequencer Rat σ, Sequencer.create setup = .ok s₀ ∧
      (s₀.recite 0 (o.chunks.map String.toList)).result = .ok s ∧
      s.timeline.entries = Timeline.backToBack 0 (Sequencer.score setup [] o.fragments) ∧
      (o.produce read).result = (s.timeline.produce o.rate o.output).result := by
  have hc := check_of_arrange h hv
  have hcreate : Sequencer.create setup = .ok (Sequencer.fresh setup) :=
    Sequencer.create_eq_ok_iff.2 ⟨hc, rfl⟩
  obtain ⟨s, hs, hentries⟩ :=
    Sequencer.recite_of_steady (Sequencer.steady_fresh hc) 0 (o.chunks.map String.toList)
  refine ⟨Sequencer.fresh setup, s, hcreate, hs, ?_, ?_⟩
  · rw [hentries, List.map_map]
    rfl
  · rw [produce]
    dsimp only
    rw [h]
    dsimp only
    rw [perform, hcreate]
    dsimp only
    rw [hs]

end Options

namespace Folder

/-- What a production in a folder comes to: the file is written, if there are samples. -/
theorem result_produce (f : Folder) (o : Options Rat) :
    (f.produce o : Account Rat σ Rat × Folder).1.result =
      match (o.produce f.read : Account Rat σ (Production Rat σ)).result with
      | .error e => .error e
      | .ok p => ((f.write o.output p.file).mapError .file).map fun _ => p.finish := by
  rw [produce]
  dsimp only
  cases (o.produce f.read : Account Rat σ (Production Rat σ)).result with
  | error e => rfl
  | ok p =>
    dsimp only
    cases f.write o.output p.file <;> rfl

/-- The folder after a production holds its file, if that could be written. -/
theorem folder_produce (f : Folder) (o : Options Rat) :
    (f.produce o : Account Rat σ Rat × Folder).2 =
      match (o.produce f.read : Account Rat σ (Production Rat σ)).result with
      | .error _ => f
      | .ok p => (f.write o.output p.file).toOption.getD f := by
  rw [produce]
  dsimp only
  cases (o.produce f.read : Account Rat σ (Production Rat σ)).result <;> rfl

end Folder

/-- The ceiling on what may be queued makes no difference to a production. With every valid ceiling
the chunks are scheduled one after the other from time zero on, and everything ends when the longest
voices of all chunks have been played one after the other. So with any two of them the same samples
are rendered, at every rate, and the production comes to the same and leaves the same files. -/
theorem ceiling_unheard {f : Folder} {o : Options Rat} {setup : Setup Rat σ}
    (hs : (o.arrange f.read).setup = .ok setup) (hv : o.maxQueued.isValid) {ceiling : Ceiling Rat}
    (hc : ceiling.isValid) :
    let o' := { o with maxQueued := ceiling }
    let setup' := { setup with maxQueued := ceiling }
    let total := (Sequencer.longestVoices setup [] o.fragments).sum
    (o'.arrange f.read).setup = .ok setup' ∧
      ∃ s₀ s₀' s s' : Sequencer Rat σ,
        Sequencer.create setup = .ok s₀ ∧ Sequencer.create setup' = .ok s₀' ∧
        (s₀.recite 0 (o.chunks.map String.toList)).result = .ok s ∧
        (s₀'.recite 0 (o.chunks.map String.toList)).result = .ok s' ∧
        s'.timeline.entries = s.timeline.entries ∧
        (∀ rate, s'.timeline.render rate = s.timeline.render rate) ∧
        s.timeline.spans.length = o.chunks.length ∧
        (∀ span, s.timeline.spans[0]? = some span → span.1 = 0) ∧
        (∀ (k : Nat) (a b : Rat × Rat), s.timeline.spans[k]? = some a →
          s.timeline.spans[k + 1]? = some b → b.1 = a.2) ∧
        s.timeline.finish = total ∧
        (f.produce o : Account Rat σ Rat × Folder).1.result =
          (match s.timeline.render? o.rate with
          | none => .error .tooLong
          | some samples => ((f.write o.output (WaveFile.encode samples 1 o.rate)).mapError
              .file).map fun _ => total) ∧
        (f.produce o' : Account Rat σ Rat × Folder).1.result =
          (f.produce o : Account Rat σ Rat × Folder).1.result ∧
        (f.produce o' : Account Rat σ Rat × Folder).2 =
          (f.produce o : Account Rat σ Rat × Folder).2 := by
  intro o' setup' total
  have hs' : (o'.arrange f.read).setup = .ok setup' := Options.setup_arrange_ceiling hs ceiling
  obtain ⟨s₀, s, hcreate, hrecite, hentries, hresult⟩ := Options.exists_recital hs hv
  obtain ⟨s₀', s', hcreate', hrecite', hentries', hresult'⟩ := Options.exists_recital hs' hc
  have hsame : s'.timeline.entries = s.timeline.entries := by
    rw [hentries, hentries']
    exact congrArg _ (Sequencer.score_ceiling setup ceiling [] o.fragments)
  have hproduce : (o'.produce f.read : Account Rat σ (Production Rat σ)).result =
      (o.produce f.read).result := by
    rw [hresult, hresult', Timeline.produce_congr hsame]
  have hfinish : s.timeline.finish = total := by
    rw [Timeline.finish, hentries]
    refine (Timeline.finish_backToBack fun p => Sequencer.duration_score_nonneg).trans ?_
    rw [Sequencer.map_duration_score]
    exact zero_add _
  obtain ⟨hlength, hfirst, hnext⟩ := Timeline.spans_backToBack hentries
  rw [Sequencer.length_score, Options.fragments, List.length_map] at hlength
  refine ⟨hs', s₀, s₀', s, s', hcreate, hcreate', hrecite, hrecite', hsame, fun rate => ?_, hlength,
    hfirst, hnext, hfinish, ?_, ?_, ?_⟩
  · rw [Timeline.render, Timeline.render, hsame]
  · rw [Folder.result_produce, hresult, Timeline.result_produce, hfinish]
    cases s.timeline.render? o.rate <;> rfl
  · rw [Folder.result_produce, Folder.result_produce, hproduce]
  · rw [Folder.folder_produce, Folder.folder_produce, hproduce]

end

section

open scoped Octaves

/-- Two voices, a chunk without music and a long rest, and no patience at all. -/
def hurried : Options Rat :=
  { (.default ["l4c|l2r", "", "l1r"] : Options Rat) with rate := 4, maxQueued := .seconds 0 }

theorem ceiling_unheard_hurried :
    let f : Folder := ⟨[]⟩
    let patient := { hurried with maxQueued := .unbounded }
    let setup : Setup Rat Rat := hurried.setup [] []
    (hurried.arrange f.read : Arrangement Rat Rat).setup = .ok setup ∧ hurried.maxQueued.isValid ∧
      patient.maxQueued.isValid ∧ (Sequencer.longestVoices setup [] hurried.fragments).sum = 3 ∧
      (∃ s₀ s : Sequencer Rat Rat, Sequencer.create setup = .ok s₀ ∧
        (s₀.recite 0 (hurried.chunks.map String.toList)).result = .ok s ∧
        s.timeline.finish = 3) ∧
      (f.produce patient : Account Rat Rat Rat × Folder).1.result =
        (f.produce hurried : Account Rat Rat Rat × Folder).1.result := by
  intro f patient setup
  have hs : (hurried.arrange f.read : Arrangement Rat Rat).setup = .ok setup :=
    Options.setup_arrange_eq_ok_iff.2 ⟨[], [], rfl, rfl, rfl⟩
  have hv : hurried.maxQueued.isValid := by decide +kernel
  have hc : (Ceiling.unbounded : Ceiling Rat).isValid := rfl
  have htotal : (Sequencer.longestVoices setup [] hurried.fragments).sum = 3 := by decide +kernel
  obtain ⟨-, s₀, -, s, -, hcreate, -, hrecite, -, -, -, -, -, -, hfinish, -, hresult, -⟩ :=
    ceiling_unheard hs hv hc
  exact ⟨hs, hv, hc, htotal, ⟨s₀, s, hcreate, hrecite, hfinish.trans htotal⟩, hresult⟩

end

end MusicMacro
