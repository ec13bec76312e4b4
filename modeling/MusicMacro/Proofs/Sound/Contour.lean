import Mathlib.Data.Rat.Floor
import Mathlib.Order.Monotone.Basic
import Mathlib.Tactic.Linarith
import Mathlib.Tactic.Positivity
import MusicMacro.Sound.Envelope

/-!
# The course of an envelope

Attack, decay and release are ramps: in each the level covers a distance at a constant speed, and
the sample that would go beyond the end of the ramp is the first of the next stage. So the number of
samples that a ramp takes is the distance in samples, rounded up, and one at least.

* `Ramp.later_eq` — a ramp from its start to its end.
* `run_inRange` — whatever is called, the level is between zero and one, and zero if no tone sounds.
* `contour_course` — and the contour goes on from there as an envelope should: up to one, down to
  the sustain level and, when the tone ends, to zero, each at the sample where its ramp ends.

Nothing is assumed of the times of the envelope: a ramp that takes no time, or less, takes one
sample.
-/

namespace MusicMacro.Contour

variable {e : Envelope Rat} {rate : Rat}

/-! ## Speeds -/

/-- The samples that it takes to cover a distance, if the whole range takes a time in seconds. -/
def rampSamples (rate seconds distance : Rat) : Nat := max 1 ⌈distance * seconds * rate⌉₊

theorem rampSamples_pos (rate seconds distance : Rat) : 0 < rampSamples rate seconds distance :=
  Nat.lt_of_lt_of_le Nat.one_pos (le_max_left _ _)

theorem slope_of_nonpos {seconds : Rat} (h : seconds ≤ 0) : slope rate seconds = 1 := if_pos h

theorem slope_of_pos {seconds : Rat} (h : 0 < seconds) :
    slope rate seconds = 1 / rate / seconds := if_neg (not_le.2 h)

theorem slope_pos (hr : 0 < rate) (seconds : Rat) : 0 < slope rate seconds := by
  rcases le_or_gt seconds 0 with h | h
  · rw [slope_of_nonpos h]
    exact one_pos
  · rw [slope_of_pos h]
    positivity

/-- So many samples cover the distance, and no fewer. -/
theorem le_mul_slope_iff (hr : 0 < rate) {seconds distance : Rat} (h0 : 0 ≤ distance)
    (h1 : distance ≤ 1) {n : Nat} (hn : 0 < n) :
    distance ≤ n * slope rate seconds ↔ rampSamples rate seconds distance ≤ n := by
  have hone : (1 : Rat) ≤ n := by exact_mod_cast hn
  rw [rampSamples, max_le_iff, Nat.ceil_le, and_iff_right (show 1 ≤ n from hn)]
  rcases le_or_gt seconds 0 with h | h
  · have hle : distance * seconds * rate ≤ 0 :=
      mul_nonpos_of_nonpos_of_nonneg (mul_nonpos_of_nonneg_of_nonpos h0 h) hr.le
    rw [slope_of_nonpos h, mul_one]
    exact ⟨fun _ => by linarith, fun _ => by linarith⟩
  · rw [slope_of_pos h, div_div, mul_one_div, le_div_iff₀ (mul_pos hr h), mul_comm rate, mul_assoc]

theorem mul_slope_lt (hr : 0 < rate) {seconds distance : Rat} (h0 : 0 < distance)
    (h1 : distance ≤ 1) {n : Nat} (hn : n < rampSamples rate seconds distance) :
    n * slope rate seconds < distance := by
  rcases Nat.eq_zero_or_pos n with rfl | hpos
  · rw [Nat.cast_zero, zero_mul]
    exact h0
  · exact not_le.1 fun h => absurd ((le_mul_slope_iff hr h0.le h1 hpos).1 h) (Nat.not_le.2 hn)

/-- No distance takes longer than the whole range. -/
theorem rampSamples_le_whole (hr : 0 < rate) (seconds : Rat) {distance : Rat}
    (h0 : 0 ≤ distance) (h1 : distance ≤ 1) :
    rampSamples rate seconds distance ≤ rampSamples rate seconds 1 := by
  have hpos := rampSamples_pos rate seconds 1
  have hwhole : 1 ≤ (rampSamples rate seconds 1 : Rat) * slope rate seconds :=
    (le_mul_slope_iff hr zero_le_one le_rfl hpos).2 le_rfl
  exact (le_mul_slope_iff hr h0 h1 hpos).1 (h1.trans hwhole)

/-! ## Ramps -/

/-- The contour after a number of samples. -/
def later (e : Envelope Rat) (rate : Rat) (c : Contour Rat) : Nat → Contour Rat
  | 0 => c
  | n + 1 => (later e rate c n).next e rate

theorem later_add (c : Contour Rat) (m n : Nat) :
    later e rate c (m + n) = later e rate (later e rate c m) n := by
  induction n with
  | zero => rfl
  | succ n ih => exact congrArg (·.next e rate) ih

theorem later_of_fixed {c : Contour Rat} (h : c.next e rate = c) (n : Nat) :
    later e rate c n = c := by
  induction n with
  | zero => rfl
  | succ n ih => rw [later, ih, h]

/-- A stage in which the level covers a distance: how long the whole range would take, the contour
when some of the distance remains, and the contour when nothing of it does. -/
structure Ramp (e : Envelope Rat) (rate : Rat) where
  seconds : Rat
  contour : Rat → Contour Rat
  finish : Contour Rat
  next_contour : ∀ d, (contour d).next e rate =
    if d ≤ slope rate seconds then finish else contour (d - slope rate seconds)

/-- The level rises to one. -/
def attack (e : Envelope Rat) (rate : Rat) : Ramp e rate where
  seconds := e.attack
  contour d := ⟨.attack, 1 - d⟩
  finish := ⟨.decay, 1⟩
  next_contour d := by
    have hcond : 1 ≤ 1 - d + slope rate e.attack ↔ d ≤ slope rate e.attack := by
      constructor <;> intro h <;> linarith
    show (if 1 ≤ 1 - d + slope rate e.attack then (⟨.decay, 1⟩ : Contour Rat)
      else ⟨.attack, 1 - d + slope rate e.attack⟩) = _
    rw [if_congr hcond rfl rfl, sub_add]

/-- The level falls to the sustain level. -/
def decay (e : Envelope Rat) (rate : Rat) : Ramp e rate where
  seconds := e.decay
  contour d := ⟨.decay, e.sustain + d⟩
  finish := ⟨.sustain, e.sustain⟩
  next_contour d := by
    have hcond : e.sustain + d - slope rate e.decay ≤ e.sustain ↔ d ≤ slope rate e.decay := by
      constructor <;> intro h <;> linarith
    show (if e.sustain + d - slope rate e.decay ≤ e.sustain
      then (⟨.sustain, e.sustain⟩ : Contour Rat)
      else ⟨.decay, e.sustain + d - slope rate e.decay⟩) = _
    rw [if_congr hcond rfl rfl, add_sub_assoc]

/-- The level falls to zero. -/
def release (e : Envelope Rat) (rate : Rat) : Ramp e rate where
  seconds := e.release
  contour d := ⟨.release, d⟩
  finish := ⟨.idle, 0⟩
  next_contour d := by
    show (if d - slope rate e.release ≤ 0 then (⟨.idle, 0⟩ : Contour Rat)
      else ⟨.release, d - slope rate e.release⟩) = _
    rw [if_congr sub_nonpos rfl rfl]

namespace Ramp

variable (r : Ramp e rate) {d : Rat} {n : Nat}

/-- The samples of the ramp when a distance remains. -/
def samples (d : Rat) : Nat := rampSamples rate r.seconds d

theorem later_of_lt (hr : 0 < rate) (h0 : 0 ≤ d) (h1 : d ≤ 1) (hn : n < r.samples d) :
    later e rate (r.contour d) n = r.contour (d - n * slope rate r.seconds) := by
  induction n with
  | zero => rw [Nat.cast_zero, zero_mul, sub_zero]; rfl
  | succ n ih =>
    have hleft : ¬ d ≤ (n + 1 : Nat) * slope rate r.seconds := fun h =>
      absurd ((le_mul_slope_iff hr h0 h1 n.succ_pos).1 h) (Nat.not_le.2 hn)
    push_cast [add_mul, one_mul] at hleft ⊢
    rw [later, ih (Nat.lt_of_succ_lt hn), r.next_contour, if_neg (by linarith), sub_sub]

theorem later_samples (hr : 0 < rate) (h0 : 0 ≤ d) (h1 : d ≤ 1) :
    later e rate (r.contour d) (r.samples d) = r.finish := by
  obtain ⟨n, hn⟩ := Nat.exists_eq_add_one.2 (rampSamples_pos rate r.seconds d)
  have hlt : n < r.samples d := by rw [samples, hn]; exact n.lt_succ_self
  have hleft : d ≤ (n + 1 : Nat) * slope rate r.seconds :=
    (le_mul_slope_iff hr h0 h1 n.succ_pos).2 hn.le
  push_cast [add_mul, one_mul] at hleft
  rw [samples, hn, later, r.later_of_lt hr h0 h1 hlt, r.next_contour, if_pos (by linarith)]

/-- The ramp goes on at its speed, and then with the contour at its end. -/
theorem later_eq (hr : 0 < rate) (h0 : 0 ≤ d) (h1 : d ≤ 1) :
    later e rate (r.contour d) n =
      if n < r.samples d then r.contour (d - n * slope rate r.seconds)
      else later e rate r.finish (n - r.samples d) := by
  split
  · next hn => exact r.later_of_lt hr h0 h1 hn
  · next hn =>
    rw [← r.later_samples hr h0 h1, ← later_add, Nat.add_sub_of_le (Nat.not_lt.1 hn)]

end Ramp

/-! ## Calls -/

/-- What can be asked of a contour. -/
inductive Call
  | noteOn
  | noteOff
  | next
deriving DecidableEq, Repr

/-- The contour after a call. -/
def respond (e : Envelope Rat) (rate : Rat) (c : Contour Rat) : Call → Contour Rat
  | .noteOn => c.noteOn
  | .noteOff => c.noteOff
  | .next => c.next e rate

/-- The contour after calls, from before the first tone. -/
def run (e : Envelope Rat) (rate : Rat) (calls : List Call) : Contour Rat :=
  calls.foldl (respond e rate) start

/-- The level is between zero and one, and what the stage allows. -/
structure InRange (e : Envelope Rat) (c : Contour Rat) : Prop where
  nonneg : 0 ≤ c.level
  le_one : c.level ≤ 1
  idle : c.stage = .idle → c.level = 0
  decay : c.stage = .decay → e.sustain ≤ c.level

/-- A sustain level that is a level. -/
def Sustainable (e : Envelope Rat) : Prop := 0 ≤ e.sustain ∧ e.sustain ≤ 1

namespace InRange

variable {c : Contour Rat}

theorem noteOn (c : Contour Rat) : InRange e c.noteOn :=
  ⟨le_rfl, zero_le_one, nofun, nofun⟩

theorem noteOff (h : InRange e c) : InRange e c.noteOff := by
  unfold Contour.noteOff
  split
  · exact h
  · exact ⟨h.nonneg, h.le_one, nofun, nofun⟩

theorem next (he : Sustainable e) (hr : 0 < rate) (h : InRange e c) :
    InRange e (c.next e rate) := by
  obtain ⟨h0, h1⟩ := he
  obtain ⟨hn, ho, hi, hd⟩ := h
  have ha := slope_pos hr e.attack
  have hde := slope_pos hr e.decay
  have hre := slope_pos hr e.release
  obtain ⟨stage, level⟩ := c
  cases stage <;> dsimp only [Contour.next] at *
  case idle => exact ⟨hn, ho, hi, hd⟩
  case sustain => exact ⟨hn, ho, hi, hd⟩
  case attack =>
    split
    · exact ⟨zero_le_one, le_rfl, nofun, fun _ => h1⟩
    · exact ⟨by dsimp only; linarith, by dsimp only; linarith, nofun, nofun⟩
  case decay =>
    split
    · exact ⟨h0, h1, nofun, nofun⟩
    · exact ⟨by dsimp only; linarith, by dsimp only; linarith, nofun, fun _ => by linarith⟩
  case release =>
    split
    · exact ⟨le_rfl, zero_le_one, fun _ => rfl, nofun⟩
    · exact ⟨by dsimp only; linarith, by dsimp only; linarith, nofun, nofun⟩

theorem later (he : Sustainable e) (hr : 0 < rate) (h : InRange e c) (n : Nat) :
    InRange e (later e rate c n) := by
  induction n with
  | zero => exact h
  | succ n ih => exact ih.next he hr

end InRange

theorem run_inRange (he : Sustainable e) (hr : 0 < rate) (calls : List Call) :
    InRange e (run e rate calls) := by
  unfold run
  -- every call keeps the range, from any contour that is in it
  have hstep : ∀ c, InRange e c → InRange e (calls.foldl (respond e rate) c) := by
    induction calls with
    | nil => exact fun _ h => h
    | cons call calls ih =>
      intro c h
      refine ih _ ?_
      cases call with
      | noteOn => exact .noteOn c
      | noteOff => exact h.noteOff
      | next => exact h.next he hr
  exact hstep _ ⟨le_rfl, zero_le_one, fun _ => rfl, nofun⟩

/-! ## Falling -/

/-- Outside the attack no sample takes the level up, and no sample leads to the attack. -/
theorem next_level_le (hr : 0 < rate) {c : Contour Rat} (h : InRange e c)
    (hc : c.stage ≠ .attack) :
    (c.next e rate).level ≤ c.level ∧ (c.next e rate).stage ≠ .attack := by
  obtain ⟨hn, -, -, hd⟩ := h
  have hde := slope_pos hr e.decay
  have hre := slope_pos hr e.release
  obtain ⟨stage, level⟩ := c
  cases stage <;> dsimp only [Contour.next] at *
  case idle => exact ⟨le_rfl, hc⟩
  case sustain => exact ⟨le_rfl, hc⟩
  case attack => exact absurd rfl hc
  case decay =>
    split
    · exact ⟨hd rfl, nofun⟩
    · exact ⟨by dsimp only; linarith, nofun⟩
  case release =>
    split
    · exact ⟨hn, nofun⟩
    · exact ⟨by dsimp only; linarith, nofun⟩

theorem later_stage_ne_attack (he : Sustainable e) (hr : 0 < rate) {c : Contour Rat}
    (h : InRange e c) (hc : c.stage ≠ .attack) (n : Nat) :
    (later e rate c n).stage ≠ .attack := by
  induction n with
  | zero => exact hc
  | succ n ih => exact (next_level_le hr (h.later he hr n) ih).2

theorem later_level_antitone (he : Sustainable e) (hr : 0 < rate) {c : Contour Rat}
    (h : InRange e c) (hc : c.stage ≠ .attack) : Antitone fun n => (later e rate c n).level :=
  antitone_nat_of_succ_le fun n =>
    (next_level_le hr (h.later he hr n) (later_stage_ne_attack he hr h hc n)).1

/-! ## A tone that is held -/

/-- The sample at which the level is one. -/
def peakSamples (e : Envelope Rat) (rate : Rat) : Nat := rampSamples rate e.attack 1

/-- The sample at which the sustain level is reached. -/
def settledSamples (e : Envelope Rat) (rate : Rat) : Nat :=
  peakSamples e rate + rampSamples rate e.decay (1 - e.sustain)

variable (e rate) in
theorem attack_contour (c : Contour Rat) : (attack e rate).contour 1 = c.noteOn :=
  congrArg (Contour.mk .attack) (sub_self 1)

variable (e rate) in
theorem decay_contour : (decay e rate).contour (1 - e.sustain) = (attack e rate).finish :=
  congrArg (Contour.mk .decay) (add_sub_cancel e.sustain 1)

variable (e) in
theorem later_attack (hr : 0 < rate) {n : Nat} (hn : n < peakSamples e rate) (c : Contour Rat) :
    later e rate c.noteOn n = ⟨.attack, n * slope rate e.attack⟩ := by
  rw [← attack_contour e rate, (attack e rate).later_of_lt hr zero_le_one le_rfl hn]
  exact congrArg (Contour.mk .attack) (sub_sub_cancel 1 _)

variable (e) in
theorem later_peak (hr : 0 < rate) (c : Contour Rat) :
    later e rate c.noteOn (peakSamples e rate) = ⟨.decay, 1⟩ := by
  rw [← attack_contour e rate]
  exact (attack e rate).later_samples hr zero_le_one le_rfl

variable (e) in
theorem later_peak_add (hr : 0 < rate) (c : Contour Rat) (n : Nat) :
    later e rate c.noteOn (peakSamples e rate + n) =
      later e rate ((decay e rate).contour (1 - e.sustain)) n := by
  rw [later_add, later_peak e hr, decay_contour]
  rfl

theorem later_decay (he : Sustainable e) (hr : 0 < rate) {n : Nat}
    (hp : peakSamples e rate ≤ n) (hs : n < settledSamples e rate) (c : Contour Rat) :
    (later e rate c.noteOn n).stage = .decay := by
  obtain ⟨k, rfl⟩ := Nat.exists_eq_add_of_le hp
  rw [later_peak_add e hr, (decay e rate).later_of_lt hr (sub_nonneg.2 he.2)
    (sub_le_self 1 he.1) (Nat.lt_of_add_lt_add_left hs)]
  rfl

theorem later_sustain (he : Sustainable e) (hr : 0 < rate) {n : Nat}
    (hs : settledSamples e rate ≤ n) (c : Contour Rat) :
    later e rate c.noteOn n = ⟨.sustain, e.sustain⟩ := by
  have hsettled : later e rate c.noteOn (settledSamples e rate) = ⟨.sustain, e.sustain⟩ := by
    rw [settledSamples, later_peak_add e hr]
    exact (decay e rate).later_samples hr (sub_nonneg.2 he.2) (sub_le_self 1 he.1)
  obtain ⟨k, rfl⟩ := Nat.exists_eq_add_of_le hs
  rw [later_add, hsettled, later_of_fixed rfl]

/-- A tone that is held does not fall silent. -/
theorem isIdle_noteOn (he : Sustainable e) (hr : 0 < rate) (c : Contour Rat) (n : Nat) :
    (later e rate c.noteOn n).isIdle = false := by
  rcases Nat.lt_or_ge n (peakSamples e rate) with hp | hp
  · rw [later_attack e hr hp]
    rfl
  rcases Nat.lt_or_ge n (settledSamples e rate) with hs | hs
  · rw [isIdle, later_decay he hr hp hs]
    rfl
  · rw [later_sustain he hr hs]
    rfl

/-- How the contour of a tone goes on as long as the tone is held, sample by sample. -/
structure Held (e : Envelope Rat) (rate : Rat) (course : Nat → Contour Rat) : Prop where
  rises : StrictMonoOn (fun n => (course n).level) (Set.Iic (peakSamples e rate))
  peak : (course (peakSamples e rate)).level = 1
  falls : AntitoneOn (fun n => (course n).level) (Set.Ici (peakSamples e rate))
  settles : ∀ n, (course n).stage = .sustain ↔ settledSamples e rate ≤ n
  settled : ∀ n, settledSamples e rate ≤ n → (course n).level = e.sustain

theorem held_noteOn (he : Sustainable e) (hr : 0 < rate) (c : Contour Rat) :
    Held e rate (later e rate c.noteOn) where
  rises := by
    intro j _ k hk hjk
    have hj : j < peakSamples e rate := Nat.lt_of_lt_of_le hjk hk
    dsimp only
    rw [later_attack e hr hj]
    rcases Nat.lt_or_eq_of_le hk with hk | rfl
    · rw [later_attack e hr hk]
      exact mul_lt_mul_of_pos_right (Nat.cast_lt.2 hjk) (slope_pos hr e.attack)
    · rw [later_peak e hr]
      exact mul_slope_lt hr one_pos le_rfl hj
  peak := by rw [later_peak e hr]
  falls := by
    intro j hj k hk hjk
    have hpeak : InRange e ⟨.decay, 1⟩ := ⟨zero_le_one, le_rfl, nofun, fun _ => he.2⟩
    obtain ⟨j, rfl⟩ := Nat.exists_eq_add_of_le (Set.mem_Ici.1 hj)
    obtain ⟨k, rfl⟩ := Nat.exists_eq_add_of_le (Set.mem_Ici.1 hk)
    dsimp only
    rw [later_add, later_add, later_peak e hr]
    exact later_level_antitone he hr hpeak nofun (Nat.le_of_add_le_add_left hjk)
  settles n := by
    refine ⟨fun h => ?_, fun h => by rw [later_sustain he hr h]⟩
    by_contra hs
    rcases Nat.lt_or_ge n (peakSamples e rate) with hp | hp
    · rw [later_attack e hr hp] at h
      exact nomatch h
    · rw [later_decay he hr hp (Nat.not_le.1 hs)] at h
      exact nomatch h
  settled n h := by rw [later_sustain he hr h]

/-! ## A tone that ends -/

/-- How the contour of a tone goes on when the tone ends at a level. -/
structure Released (e : Envelope Rat) (rate level : Rat) (course : Nat → Contour Rat) : Prop where
  falls : Antitone fun n => (course n).level
  ends : ∀ n, (course n).isIdle = true ↔ rampSamples rate e.release level ≤ n
  silent : ∀ n, rampSamples rate e.release level ≤ n → (course n).level = 0

theorem noteOff_of_sounding {c : Contour Rat} (hc : c.isIdle = false) :
    c.noteOff = (release e rate).contour c.level :=
  if_neg (of_decide_eq_false hc)

theorem released_noteOff (he : Sustainable e) (hr : 0 < rate) {c : Contour Rat} (h : InRange e c)
    (hc : c.isIdle = false) : Released e rate c.level (later e rate c.noteOff) := by
  have hoff : c.noteOff = (release e rate).contour c.level := noteOff_of_sounding hc
  have hidle : ∀ n, rampSamples rate e.release c.level ≤ n →
      later e rate c.noteOff n = ⟨.idle, 0⟩ := by
    intro n hn
    have hend : ¬ n < (release e rate).samples c.level := Nat.not_lt.2 hn
    rw [hoff, (release e rate).later_eq hr h.nonneg h.le_one, if_neg hend]
    exact later_of_fixed rfl _
  refine ⟨later_level_antitone he hr h.noteOff (by rw [hoff]; exact nofun), fun n => ?_,
    fun n hn => by rw [hidle n hn]⟩
  refine ⟨fun hi => ?_, fun hn => by rw [hidle n hn]; rfl⟩
  by_contra hn
  rw [hoff, (release e rate).later_of_lt hr h.nonneg h.le_one (Nat.not_le.1 hn)] at hi
  exact nomatch hi

/-! ## The course -/

/-- Whatever has been called, the level is in range, a contour that is held from now on takes the
course of a held tone, and one that sounds takes, when it ends now, the course of a tone that
ends. -/
theorem contour_course (e : Envelope Rat) (h0 : 0 ≤ e.sustain) (h1 : e.sustain ≤ 1) {rate : Rat}
    (hr : 0 < rate) (calls : List Call) :
    let c := run e rate calls
    InRange e c ∧ Held e rate (later e rate c.noteOn) ∧
      (c.isIdle = false → Released e rate c.level (later e rate c.noteOff)) := by
  intro c
  have hc : InRange e c := run_inRange ⟨h0, h1⟩ hr calls
  exact ⟨hc, held_noteOn ⟨h0, h1⟩ hr c, released_noteOff ⟨h0, h1⟩ hr hc⟩

/-- A tone that ends in its attack, at two thirds, is silent after three samples. -/
theorem contour_course_interrupted :
    let e : Envelope Rat := ⟨3 / 10, 1 / 2, 1 / 4, 2 / 5⟩
    let c := run e 10 [.noteOn, .next, .next]
    c.level = 2 / 3 ∧ rampSamples 10 e.release (2 / 3) = 3 ∧
      Held e 10 (later e 10 c.noteOn) ∧ Released e 10 (2 / 3) (later e 10 c.noteOff) := by
  intro e c
  have h := contour_course e (by decide +kernel) (by decide +kernel)
    (show (0 : Rat) < 10 by decide +kernel) [.noteOn, .next, .next]
  have hlevel : c.level = 2 / 3 := by decide +kernel
  refine ⟨hlevel, by decide +kernel, h.2.1, ?_⟩
  rw [← hlevel]
  exact h.2.2 (by decide +kernel)

end MusicMacro.Contour
