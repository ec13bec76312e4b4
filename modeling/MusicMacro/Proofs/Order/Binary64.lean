import Mathlib
import MusicMacro.Proofs.Order

/-!
# The order of floating point numbers

Floating point is in order: a number is as large as its place says, which is its sign and then its
exponent and its significand. Both zeros have one place, and what is not a number has none that
counts. So it is with 64 bits, and with the 32 bits of the samples.

* `Double.le_iff`, `Double.lt_iff` — comparisons are comparisons of places.
* `Double.isNaN_unpack_pack` — packing makes nothing undefined.
* `Double.ordered_of_unpack` — the instances of `Scalar.Ordered` for `Float` and for `Float32`.
-/

namespace MusicMacro

open Float.Model

namespace Double

/-- The place of a floating point number among the others: infinite, finite or zero, then by
exponent, then by significand. -/
def place : UnpackedFloat → Int ×ₗ Int ×ₗ Int
  | .infinity .negative => toLex (-2, toLex (0, 0))
  | .finite .negative m e _ => toLex (-1, toLex (-e, -(m : Int)))
  | .zero _ | .notANumber => toLex (0, toLex (0, 0))
  | .finite .positive m e _ => toLex (1, toLex (e, (m : Int)))
  | .infinity .positive => toLex (2, toLex (0, 0))

theorem compare_sign (s t : UnpackedFloat.Sign) :
    compare s t = match s, t with
      | .negative, .positive => .lt
      | .positive, .negative => .gt
      | _, _ => .eq := by
  cases s <;> cases t <;> rfl

theorem isLE_then_compare (e f : Int) (m n : Nat) :
    ((compare e f).then (compare m n)).isLE ↔ e < f ∨ e = f ∧ m ≤ n := by
  rw [Ordering.isLE_then_iff_or, Int.compare_eq_lt, Int.compare_eq_eq, Nat.isLE_compare]

theorem isGE_then_compare (e f : Int) (m n : Nat) :
    ((compare e f).then (compare m n)).isGE ↔ f < e ∨ e = f ∧ n ≤ m := by
  rw [Ordering.isGE_iff_eq_gt_or_eq_eq, Ordering.then_eq_gt, Ordering.then_eq_eq,
    Int.compare_eq_gt, Int.compare_eq_eq, Nat.compare_eq_gt, Nat.compare_eq_eq]
  omega

theorem le_iff (a b : UnpackedFloat) :
    a.le b ↔ a.isNaN = false ∧ b.isNaN = false ∧ place a ≤ place b := by
  rcases a with (_ | _) | _ | _ | ⟨_ | _, m, e, hm⟩ <;>
    rcases b with (_ | _) | _ | _ | ⟨_ | _, n, f, hn⟩ <;>
    simp [UnpackedFloat.le, UnpackedFloat.compare, UnpackedFloat.isNaN, place, compare_sign,
      Prod.Lex.toLex_le_toLex, isLE_then_compare, isGE_then_compare]

theorem lt_iff (a b : UnpackedFloat) :
    a.lt b ↔ a.isNaN = false ∧ b.isNaN = false ∧ place a < place b := by
  rcases a with (_ | _) | _ | _ | ⟨_ | _, m, e, hm⟩ <;>
    rcases b with (_ | _) | _ | _ | ⟨_ | _, n, f, hn⟩ <;>
    simp [UnpackedFloat.lt, UnpackedFloat.compare, UnpackedFloat.isNaN, place, compare_sign,
      Prod.Lex.toLex_lt_toLex, Ordering.then_eq_lt, Ordering.then_eq_gt, Nat.compare_eq_lt,
      Nat.compare_eq_gt, Int.compare_eq_lt, Int.compare_eq_gt]

/-- Packing makes nothing undefined: what is too large becomes infinite. -/
theorem isNaN_unpack_pack {spec : Format} {f : UnpackedFloat} (h : f.isNaN = false) :
    (UnpackedFloat.unpack spec (UnpackedFloat.pack spec f)).isNaN = false := by
  have hones : (-1#(spec.exponentBits)).toNat = 2 ^ spec.exponentBits - 1 := by
    rw [BitVec.neg_one_eq_allOnes, BitVec.toNat_allOnes]
  have hexponent : UnpackedFloat.unpackExponent (UnpackedFloat.pack spec f) = -1#_ →
      UnpackedFloat.unpackMantissa (UnpackedFloat.pack spec f) = 0#_ := by
    fun_cases UnpackedFloat.pack spec f with
    | case1 => cases h
    | case2 s => simp [UnpackedFloat.packedInfinity]
    | case3 s => simp [UnpackedFloat.packedZero]
    | case4 s m e hm biased hlarge => simp [UnpackedFloat.packedInfinity]
    | case5 s m e hm bits biased hsmall hnormal =>
      intro hone
      rw [UnpackedFloat.unpackExponent_packComponents] at hone
      have hvalue : biased % 2 ^ spec.exponentBits = 2 ^ spec.exponentBits - 1 :=
        (congrArg BitVec.toNat hone).trans hones
      rw [Nat.mod_eq_of_lt (by omega)] at hvalue
      omega
    | case6 s m e hm bits biased hsmall hsubnormal =>
      intro hone
      rw [UnpackedFloat.unpackExponent_packComponents] at hone
      have hvalue : 0 = 2 ^ spec.exponentBits - 1 := (congrArg BitVec.toNat hone).trans hones
      have htwo : 2 ^ 1 ≤ 2 ^ spec.exponentBits := Nat.pow_le_pow_right (by decide) spec.he
      omega
  unfold UnpackedFloat.unpack
  dsimp only
  generalize UnpackedFloat.pack spec f = b at hexponent ⊢
  by_cases hone : UnpackedFloat.unpackExponent b = -1#_
  · rw [if_pos hone, if_pos (hexponent hone)]
    rfl
  · rw [if_neg hone]
    split
    · split <;> rfl
    · rfl

theorem isNaN_of_isFinite {f : UnpackedFloat} (h : f.isFinite) : f.isNaN = false := by
  cases f with
  | notANumber => cases h
  | _ => rfl

theorem isNaN_normalize (spec : Format) (m e : Int) (s : UnpackedFloat.Sign) :
    (UnpackedFloat.normalize spec m e s).isNaN = false := by
  unfold UnpackedFloat.normalize UnpackedFloat.round UnpackedFloat.roundWithAccuracy
  dsimp only
  split
  · split <;> rfl
  · rfl
  · split <;> rfl

theorem isNaN_add {spec : Format} {a b : UnpackedFloat} (ha : a.isFinite) (hb : b.isFinite) :
    (UnpackedFloat.add spec a b).isNaN = false := by
  cases a with
  | notANumber | infinity s => cases ha
  | zero s =>
    cases b with
    | notANumber | infinity t => cases hb
    | zero t =>
      rw [UnpackedFloat.add]
      split <;> rfl
    | finite t n f hn => rfl
  | finite s m e hm =>
    cases b with
    | notANumber | infinity t => cases hb
    | zero t => rfl
    | finite t n f hn => exact isNaN_normalize _ _ _ _

/-- Numbers are in order if they are unpacked to be compared and added. -/
theorem ordered_of_unpack {α : Type} [Scalar α] (unpack : α → UnpackedFloat)
    (hle : ∀ a b : α, a ≤ b ↔ (unpack a).le (unpack b))
    (hlt : ∀ a b : α, a < b ↔ (unpack a).lt (unpack b))
    (hfinite : ∀ a : α, Scalar.isFinite a → (unpack a).isFinite)
    (hadd : ∀ a b : α, (unpack a).isFinite → (unpack b).isFinite →
      (unpack (a + b)).isNaN = false) : Scalar.Ordered α := by
  have hnumber (a : α) : Scalar.isNumber a ↔ (unpack a).isNaN = false := by
    rw [Scalar.isNumber, decide_eq_true_iff, hle, le_iff]
    exact ⟨fun h => h.1, fun h => ⟨h, h, le_rfl⟩⟩
  constructor
  case trans =>
    intro a b c hab hbc
    rw [hle, le_iff] at hab hbc ⊢
    exact ⟨hab.1, hbc.2.1, hab.2.2.trans hbc.2.2⟩
  case total =>
    intro a b ha hb
    rw [hnumber] at ha hb
    rw [hle, hle, le_iff, le_iff]
    exact (le_total _ _).imp (fun h => ⟨ha, hb, h⟩) fun h => ⟨hb, ha, h⟩
  case lt_iff =>
    intro a b
    rw [hlt, hle, hle, lt_iff, le_iff, le_iff]
    constructor
    · rintro ⟨ha, hb, h⟩
      exact ⟨⟨ha, hb, h.le⟩, fun h' => absurd h'.2.2 (not_le.2 h)⟩
    · rintro ⟨⟨ha, hb, -⟩, h⟩
      exact ⟨ha, hb, not_le.1 fun h' => h ⟨hb, ha, h'⟩⟩
  case isNumber_of_le =>
    intro a b h
    rw [hle, le_iff] at h
    exact ⟨(hnumber a).2 h.1, (hnumber b).2 h.2.1⟩
  case isNumber_of_isFinite =>
    intro a h
    exact (hnumber a).2 (isNaN_of_isFinite (hfinite a h))
  case isNumber_add =>
    intro a b ha hb
    exact (hnumber _).2 (hadd a b (hfinite a ha) (hfinite b hb))

/-! ## Comparisons of numbers -/

theorem le_iff_place {a b : Float} :
    a ≤ b ↔ a.toModel.unpack.isNaN = false ∧ b.toModel.unpack.isNaN = false ∧
      place a.toModel.unpack ≤ place b.toModel.unpack := by
  rw [← le_iff]
  exact decide_eq_true_iff

theorem isNumber_iff {a : Float} :
    Scalar.isNumber a ↔ a.toModel.unpack.isNaN = false := by
  rw [Scalar.isNumber, decide_eq_true_iff]
  refine le_iff_place.trans ⟨fun h => h.1, fun h => ⟨h, h, le_rfl⟩⟩

end Double

open Double

instance : Scalar.Ordered Float :=
  ordered_of_unpack (fun a => a.toModel.unpack) (fun _ _ => decide_eq_true_iff)
    (fun _ _ => decide_eq_true_iff) (fun _ h => h) fun _ _ ha hb =>
      isNaN_unpack_pack (isNaN_add ha hb)

instance : Scalar.Ordered Float32 :=
  ordered_of_unpack (fun a => a.toModel.unpack) (fun _ _ => decide_eq_true_iff)
    (fun _ _ => decide_eq_true_iff) (fun _ h => h) fun _ _ ha hb =>
      isNaN_unpack_pack (isNaN_add ha hb)

end MusicMacro
