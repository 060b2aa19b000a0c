import SignalFlow.Proofs.Double.Absorbing
import SignalFlow.Tolerance

/-!
# Doubles near each other

Being near is symmetric: a difference and the opposite one are rounded and packed alike but for the sign
(`abs_sub_comm`), and the larger of two absolute values is the same in either order. No number is near nothing
(`near_of_isNaN`). Between infinity and another number the difference is infinite, which no finite tolerance allows, but
a positive fraction of infinity is infinite too (`near_infinity`): with a positive relative tolerance infinity is near
every number.
-/

namespace SignalFlow

open Float.Model (UnpackedFloat Format)
open Float.Model.UnpackedFloat (Sign)

namespace Double

/-! ## Absolute differences -/

theorem abs_abs (u : UnpackedFloat) : u.abs.abs = u.abs := by
  cases u <;> rfl

theorem abs_assemble (s : Sign) (e : BitVec 11) (m : BitVec 52) : (assemble s e m).abs = assemble .positive e m := by
  unfold assemble
  split_ifs <;> rfl

/-- **Packing does not look at the sign.** What is packed need not be canonical: it can be too large. -/
theorem abs_unpack_pack (u : UnpackedFloat) :
    (UnpackedFloat.unpack Format.binary64 (UnpackedFloat.pack Format.binary64 u)).abs =
      UnpackedFloat.unpack Format.binary64 (UnpackedFloat.pack Format.binary64 u.abs) := by
  cases u with
  | notANumber => rfl
  | infinity s | zero s => cases s <;> rfl
  | finite s m e hm =>
    rw [show (UnpackedFloat.finite s m e hm).abs = .finite .positive m e hm from rfl]
    unfold UnpackedFloat.pack
    dsimp only
    split_ifs
    · rw [UnpackedFloat.packedInfinity, UnpackedFloat.packedInfinity, unpack_packComponents, unpack_packComponents,
        abs_assemble]
    · rw [unpack_packComponents, unpack_packComponents, abs_assemble]
    · rw [unpack_packComponents, unpack_packComponents, abs_assemble]

/-- **Rounding does not look at the sign.** -/
theorem abs_round (s : Sign) (m : Nat) (e : Int) :
    (UnpackedFloat.round Format.binary64 s m e).abs = UnpackedFloat.round Format.binary64 .positive m e := by
  unfold UnpackedFloat.round UnpackedFloat.roundWithAccuracy
  dsimp only
  split_ifs <;> rfl

theorem compare_neg_zero (m : Int) : compare (-m) 0 = (compare m 0).swap := by
  rcases lt_trichotomy m 0 with h | rfl | h
  · rw [compare_lt_iff_lt.mpr h, compare_gt_iff_gt.mpr (Int.neg_pos_of_neg h)]
    rfl
  · rfl
  · rw [compare_gt_iff_gt.mpr h, compare_lt_iff_lt.mpr (Int.neg_neg_of_pos h)]
    rfl

theorem abs_normalize_neg (m e : Int) (s : Sign) :
    (UnpackedFloat.normalize Format.binary64 (-m) e s).abs = (UnpackedFloat.normalize Format.binary64 m e s).abs := by
  unfold UnpackedFloat.normalize
  rw [compare_neg_zero, Int.neg_neg]
  cases compare m 0 with
  | eq => rfl
  | lt | gt => exact (abs_round _ _ _).trans (abs_round _ _ _).symm

/-- **The opposite difference has the same absolute value.** -/
theorem abs_sub_comm (u v : UnpackedFloat) :
    (UnpackedFloat.sub Format.binary64 u v).abs = (UnpackedFloat.sub Format.binary64 v u).abs := by
  cases u with
  | notANumber => cases v <;> rfl
  | infinity s =>
    cases v with
    | infinity t => cases s <;> cases t <;> rfl
    | _ => rfl
  | zero s =>
    cases v with
    | zero t => cases s <;> cases t <;> rfl
    | _ => rfl
  | finite s m e hm =>
    cases v with
    | finite t n f hn =>
      unfold UnpackedFloat.sub
      dsimp only
      rw [min_comm f e, ← abs_normalize_neg, Int.neg_sub]
    | _ => rfl

/-! ## Order -/

theorem compare_swap (u v : UnpackedFloat) : u.compare v = (v.compare u).map Ordering.swap := by
  cases u with
  | notANumber => cases v <;> rfl
  | infinity s =>
    cases v with
    | infinity t => cases s <;> cases t <;> rfl
    | _ => cases s <;> rfl
  | zero s =>
    cases v with
    | infinity t | finite t => cases t <;> rfl
    | _ => rfl
  | finite s m e hm =>
    cases v with
    | infinity t => cases t <;> rfl
    | zero | notANumber => cases s <;> rfl
    | finite t n f hn =>
      have hswap : (compare e f).then (compare m n) = ((compare f e).then (compare n m)).swap := by
        rw [Ordering.swap_then, ← Std.OrientedOrd.eq_swap, ← Std.OrientedOrd.eq_swap]
      cases s <;> cases t
      case negative.positive | positive.negative => rfl
      case negative.negative => exact congrArg (some ·.swap) hswap
      case positive.positive => exact congrArg some hswap

theorem compare_eq_none_iff (u v : UnpackedFloat) : u.compare v = none ↔ u = .notANumber ∨ v = .notANumber := by
  fun_cases UnpackedFloat.compare u v <;> simp_all

/-- Floats that compare as equal differ at most in sign. -/
theorem abs_eq_of_compare_eq {u v : UnpackedFloat} (h : u.compare v = some .eq) : u.abs = v.abs := by
  have hbeq : u.beq v = true := beq_iff_eq.mpr h
  rw [UnpackedFloat.beq_iff_ne_notANumber_and_eq] at hbeq
  obtain ⟨-, -, rfl | ⟨rfl, rfl⟩ | ⟨rfl, rfl⟩⟩ := hbeq <;> rfl

/-- A float is known by what it unpacks to. -/
theorem eq_of_unpack_eq {x y : Float} (h : x.toModel.unpack = y.toModel.unpack) : x = y :=
  Float.toBits_inj.mp (UInt64.toBitVec_inj.mp
    ((UnpackedFloat.unpack_inj_of_valid x.toModel.valid y.toModel.valid).mp h))

theorem lt_iff (x y : Float) : x < y ↔ x.toModel.unpack.compare y.toModel.unpack = some .lt :=
  decide_eq_true_iff.trans beq_iff_eq

theorem le_iff (x y : Float) :
    x ≤ y ↔ (x.toModel.unpack.compare y.toModel.unpack).any Ordering.isLE = true :=
  decide_eq_true_iff

/-- Nothing is compared to what is no number. -/
theorem not_le_of_notANumber {x : Float} (y : Float) (h : x.toModel.unpack = .notANumber) : ¬ x ≤ y := by
  rw [le_iff, (compare_eq_none_iff _ _).mpr (.inl h)]
  exact Bool.false_ne_true

/-! ## Floats -/

section Floats

variable {x y : Float}

theorem isNaN_unpack_iff (x : Float) : x.isNaN = true ↔ x.toModel.unpack = .notANumber := UnpackedFloat.isNaN_iff

theorem isInf_unpack_iff (x : Float) : x.isInf = true ↔ ∃ s, x.toModel.unpack = .infinity s := by
  change x.toModel.unpack.isInf = true ↔ _
  cases x.toModel.unpack with
  | infinity s => exact ⟨fun _ => ⟨s, rfl⟩, fun _ => rfl⟩
  | _ => simp [UnpackedFloat.isInf]

theorem isNaN_of_isInf (h : x.isInf = true) : x.isNaN = false := by
  obtain ⟨s, hs⟩ := (isInf_unpack_iff x).mp h
  change x.toModel.unpack.isNaN = false
  rw [hs]
  rfl

theorem unpack_sub (x y : Float) : (x - y).toModel.unpack = UnpackedFloat.unpack Format.binary64
    (UnpackedFloat.pack Format.binary64 (UnpackedFloat.sub Format.binary64 x.toModel.unpack y.toModel.unpack)) := rfl

theorem unpack_zero : (0 : Float).toModel.unpack = .zero .positive := by
  rfl

theorem float_abs_sub_comm (x y : Float) : (x - y).abs = (y - x).abs := eq_of_unpack_eq (by
  rw [unpack_abs, unpack_abs, unpack_sub, unpack_sub, abs_unpack_pack, abs_unpack_pack, abs_sub_comm])

/-- Absolute values that compare as equal are. -/
theorem float_abs_eq (h : x.abs.toModel.unpack.compare y.abs.toModel.unpack = some .eq) : x.abs = y.abs := by
  have habs := abs_eq_of_compare_eq h
  rw [unpack_abs, unpack_abs, abs_abs, abs_abs] at habs
  exact eq_of_unpack_eq (by rw [unpack_abs, unpack_abs, habs])

theorem abs_sub_notANumber (h : x.isNaN = true ∨ y.isNaN = true) : (x - y).abs.toModel.unpack = .notANumber := by
  have hadd : x.toModel.unpack = .notANumber ∨ y.toModel.unpack.neg = .notANumber :=
    h.imp (isNaN_unpack_iff x).mp fun hy => by rw [(isNaN_unpack_iff y).mp hy]; rfl
  rw [unpack_abs, unpack_sub, sub_eq_add_neg, add_notANumber hadd]
  rfl

/-- **Infinity and another number differ by infinity.** -/
theorem abs_sub_infinity {s : Sign} (hx : x.toModel.unpack = .infinity s) (hy : y.isNaN = false)
    (hne : ¬ (x == y) = true) : (x - y).abs.toModel.unpack = .infinity .positive := by
  change y.toModel.unpack.isNaN = false at hy
  change ¬ x.toModel.unpack.beq y.toModel.unpack = true at hne
  have hsub : UnpackedFloat.sub Format.binary64 x.toModel.unpack y.toModel.unpack = .infinity s := by
    rw [hx] at hne ⊢
    cases hv : y.toModel.unpack with
    | notANumber =>
      rw [hv] at hy
      cases hy
    | infinity t =>
      rw [hv] at hne
      cases s <;> cases t
      case negative.positive | positive.negative => rfl
      case negative.negative | positive.positive => exact absurd rfl hne
    | zero | finite => rfl
  rw [unpack_abs, unpack_sub, hsub, unpack_pack (u := .infinity s) trivial]
  rfl

/-- Infinity is beyond every finite number. -/
theorem not_infinity_le (hx : x.toModel.unpack = .infinity .positive) (hy : y.isFinite = true) : ¬ x ≤ y := by
  change y.toModel.unpack.isFinite = true at hy
  rw [le_iff, hx]
  cases h : y.toModel.unpack with
  | zero | finite => exact Bool.false_ne_true
  | infinity | notANumber =>
    rw [h] at hy
    exact absurd hy Bool.false_ne_true

theorem not_infinity_lt (hx : x.toModel.unpack = .infinity .positive) : ¬ x < y := by
  rw [lt_iff, hx]
  cases y.toModel.unpack with
  | infinity t => cases t <;> simp [UnpackedFloat.compare]
  | _ => simp [UnpackedFloat.compare]

/-- **A positive multiple of infinity is infinite**, and zero times infinity is no number. -/
theorem infinity_le_mul {r : Float} (hx : x.toModel.unpack = .infinity .positive)
    (hy : y.toModel.unpack = .infinity .positive) (hfinite : r.isFinite = true) (hnonneg : 0 ≤ r) :
    x ≤ r * y ↔ 0 < r := by
  change r.toModel.unpack.isFinite = true at hfinite
  have hmul : (r * y).toModel.unpack = UnpackedFloat.unpack Format.binary64 (UnpackedFloat.pack Format.binary64
      (UnpackedFloat.mul Format.binary64 r.toModel.unpack (.infinity .positive))) := by
    rw [← hy]
    rfl
  rw [le_iff, unpack_zero] at hnonneg
  rw [le_iff, lt_iff, hx, hmul, unpack_zero]
  cases hr : r.toModel.unpack with
  | zero s =>
    rw [show UnpackedFloat.mul Format.binary64 (.zero s) (.infinity .positive) = .notANumber from rfl,
      unpack_pack (u := .notANumber) trivial]
    exact ⟨nofun, nofun⟩
  | finite s m e hm =>
    rw [hr] at hnonneg
    cases s with
    | negative => exact absurd hnonneg Bool.false_ne_true
    | positive =>
      rw [show UnpackedFloat.mul Format.binary64 (.finite .positive m e hm) (.infinity .positive) =
        .infinity .positive from rfl, unpack_pack (u := .infinity .positive) trivial]
      exact ⟨fun _ => rfl, fun _ => rfl⟩
  | infinity | notANumber =>
    rw [hr] at hfinite
    cases hfinite

end Floats

end Double

/-! ## Nearness -/

section Larger

variable {x y : Float}

/-- The larger of two numbers does not depend on their order, if those that compare as equal are. -/
theorem largerOf_comm (h : x.toModel.unpack.compare y.toModel.unpack = some .eq → x = y) :
    largerOf x y = largerOf y x := by
  rw [largerOf, largerOf]
  by_cases hx : x.isNaN = true
  · by_cases hy : y.isNaN = true
    · have hxy : x = y :=
        Double.eq_of_unpack_eq (((Double.isNaN_unpack_iff x).mp hx).trans ((Double.isNaN_unpack_iff y).mp hy).symm)
      rw [hxy]
    · rw [if_pos hx, if_neg hy, if_pos hx]
  · by_cases hy : y.isNaN = true
    · rw [if_neg hx, if_pos hy, if_pos hy]
    · have hsome : x.toModel.unpack.compare y.toModel.unpack ≠ none := fun hnone =>
        ((Double.compare_eq_none_iff _ _).mp hnone).elim (fun h => hx ((Double.isNaN_unpack_iff x).mpr h))
          (fun h => hy ((Double.isNaN_unpack_iff y).mpr h))
      rw [if_neg hx, if_neg hy, if_neg hy, if_neg hx]
      simp only [Double.lt_iff, Double.compare_swap y.toModel.unpack]
      cases hcompare : x.toModel.unpack.compare y.toModel.unpack with
      | none => exact absurd hcompare hsome
      | some o =>
        cases o with
        | lt | gt => rfl
        | eq =>
          rw [h hcompare]
          rfl

theorem largerOf_infinity (hx : x.toModel.unpack = .infinity .positive) : largerOf x y = x := by
  have hnan : ¬ x.isNaN = true := fun h => by cases hx.symm.trans ((Double.isNaN_unpack_iff x).mp h)
  rw [largerOf, if_neg hnan, if_neg (Double.not_infinity_lt hx), ite_self]

end Larger

namespace Tolerance

variable {tol : Tolerance} {a b : Float}

/-- **A tolerance in the range it is meant for**: finite and not negative. -/
structure Proper (tol : Tolerance) : Prop where
  abs_finite : tol.abs.isFinite = true
  abs_nonneg : 0 ≤ tol.abs
  rel_finite : tol.rel.isFinite = true
  rel_nonneg : 0 ≤ tol.rel

/-- The default tolerance is proper. -/
theorem proper_default : ({} : Tolerance).Proper where
  abs_finite := by decide +kernel
  abs_nonneg := by decide +kernel
  rel_finite := by decide +kernel
  rel_nonneg := by decide +kernel

theorem near_iff (tol : Tolerance) (a b : Float) : tol.near a b = true ↔
    (a == b) = true ∨ (a - b).abs ≤ tol.abs ∨ (a - b).abs ≤ tol.rel * largerOf a.abs b.abs := by
  rw [near]
  dsimp only
  split_ifs with heq habs
  · simp only [heq, true_or]
  · simp only [habs, true_or, or_true]
  · simp only [heq, habs, Bool.false_eq_true, false_or, decide_eq_true_eq]

/-- **Being near is symmetric**, whatever the tolerances. -/
theorem near_comm (tol : Tolerance) (a b : Float) : tol.near a b = tol.near b a := by
  rw [Bool.eq_iff_iff, near_iff, near_iff, Double.float_abs_sub_comm, largerOf_comm Double.float_abs_eq, BEq.comm]

/-- **Nothing is near what is no number.** -/
theorem near_of_isNaN (tol : Tolerance) (h : a.isNaN = true ∨ b.isNaN = true) : tol.near a b = false := by
  rw [← Bool.not_eq_true, near_iff]
  rintro (heq | hle | hle)
  · obtain ⟨ha, hb, -⟩ := (UnpackedFloat.beq_iff_ne_notANumber_and_eq _ _).mp heq
    exact h.elim (fun h => ha ((Double.isNaN_unpack_iff a).mp h)) (fun h => hb ((Double.isNaN_unpack_iff b).mp h))
  · exact Double.not_le_of_notANumber _ (Double.abs_sub_notANumber h) hle
  · exact Double.not_le_of_notANumber _ (Double.abs_sub_notANumber h) hle

/-- **What infinity is near**: what it is equal to, and every other number if the relative tolerance is positive. -/
theorem near_infinity (h : tol.Proper) (ha : a.isInf = true) :
    tol.near a b = true ↔ (a == b) = true ∨ 0 < tol.rel ∧ b.isNaN = false := by
  obtain ⟨s, hs⟩ := (Double.isInf_unpack_iff a).mp ha
  have hlarger : a.abs.toModel.unpack = .infinity .positive := by
    rw [Double.unpack_abs, hs]
    rfl
  rw [near_iff, largerOf_infinity hlarger]
  refine or_congr_right' fun hne => ?_
  cases hb : b.isNaN with
  | true =>
    have hdiff := Double.abs_sub_notANumber (x := a) (.inr hb)
    exact ⟨fun hle => (hle.elim (Double.not_le_of_notANumber _ hdiff) (Double.not_le_of_notANumber _ hdiff)).elim,
      fun h => by cases h.2⟩
  | false =>
    have hdiff := Double.abs_sub_infinity hs hb hne
    rw [or_iff_right (Double.not_infinity_le hdiff h.abs_finite),
      Double.infinity_le_mul hdiff hlarger h.rel_finite h.rel_nonneg]
    exact (and_iff_left rfl).symm

/-- **Being near at the ends of the range.** It is symmetric, nothing is near what is no number, and infinity is near
what it is equal to, but with a positive relative tolerance also near every other number, finite or not. -/
theorem near_exact (h : tol.Proper) (a b : Float) :
    tol.near a b = tol.near b a ∧ (a.isNaN = true ∨ b.isNaN = true → tol.near a b = false) ∧
      (a.isInf = true ∨ b.isInf = true → (tol.near a b = true ↔
        (a == b) = true ∨ 0 < tol.rel ∧ a.isNaN = false ∧ b.isNaN = false)) := by
  refine ⟨near_comm tol a b, near_of_isNaN tol, ?_⟩
  rintro (ha | hb)
  · rw [near_infinity h ha, Double.isNaN_of_isInf ha]
    simp only [true_and]
  · rw [near_comm, near_infinity h hb, Double.isNaN_of_isInf hb, BEq.comm]
    simp only [and_true]

/-- By default infinity is not near a NaN, and is near its opposite. -/
theorem near_exact_default : ({} : Tolerance).near (1 / 0) (0 / 0) = false ∧
    ({} : Tolerance).near (1 / 0) (-1 / 0) = true := by
  obtain ⟨-, hnan, -⟩ := near_exact proper_default (1 / 0) (0 / 0)
  obtain ⟨-, -, hinfinite⟩ := near_exact proper_default (1 / 0) (-1 / 0)
  refine ⟨hnan (.inr (by decide +kernel)), (hinfinite (.inl (by decide +kernel))).mpr (.inr ⟨?_, ?_, ?_⟩)⟩
  · decide +kernel
  · decide +kernel
  · decide +kernel

/-- **By default infinity is near one**, which it is not equal to. -/
theorem near_infinity_one : ({} : Tolerance).Proper ∧ (1 / 0 : Float).isInf = true ∧
    ((1 / 0 : Float) == 1) = false ∧ ({} : Tolerance).near (1 / 0) 1 = true :=
  ⟨proper_default, by decide +kernel⟩

end Tolerance

end SignalFlow
