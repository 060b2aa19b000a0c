import SignalFlow.Proofs.Double.Unpacked
import SignalFlow.Proofs.Rewrite.Written

/-!
# Doubles as coefficients

Two doubles are the same literal if they unpack to the same, or to zeros of either sign (`same_iff`). Signs and the
number one act on unpacked doubles as they should, so doubles can be read as they were written, although sums and
products of them are rounded.
-/

namespace SignalFlow.Double

open Float.Model (UnpackedFloat Format)
open Float.Model.UnpackedFloat (Sign)

/-- What a double unpacks to. -/
def unpacked (a : Double) : UnpackedFloat := a.toFloat.toModel.unpack

theorem canonical_unpacked (a : Double) : Canonical a.unpacked := canonical_unpack a.toFloat.toModel.toBits.toBitVec

theorem unpacked_nan (negative : Bool) : (nan negative).unpacked = .notANumber := by
  have hnan : (0.0 / 0.0 : Float).toModel.unpack = .notANumber := by rfl
  exact hnan

/-- A float keeps its value as a double. -/
theorem unpacked_ofFloat (x : Float) (negative : Bool) : (ofFloat x negative).unpacked = x.toModel.unpack := by
  rw [ofFloat]
  split
  · rfl
  · next h =>
    have hnan : x.toModel.unpack.isNaN = true := (Bool.not_eq_false _).mp h
    rw [unpacked_nan]
    cases hx : x.toModel.unpack with
    | notANumber => rfl
    | _ =>
      rw [hx] at hnan
      cases hnan

theorem unpacked_neg (a : Double) : (neg a).unpacked = a.unpacked.neg := by
  cases a with
  | number x h => rw [neg, unpacked_ofFloat, unpack_neg]; rfl
  | nan negative => rw [neg, unpacked_nan, unpacked_nan]; rfl

theorem unpacked_abs (a : Double) : (abs a).unpacked = a.unpacked.abs := by
  cases a with
  | number x h => rw [abs, unpacked_ofFloat, unpack_abs]; rfl
  | nan negative => rw [abs, unpacked_nan, unpacked_nan]; rfl

theorem unpacked_zero : (Scalar.zero : Double).unpacked = .zero .positive := by
  rfl

theorem unpacked_one : (Scalar.one : Double).unpacked = unit .positive := by
  rfl

/-- **The same number, or both no number**, or zeros. -/
def Alike (u v : UnpackedFloat) : Prop := u = v ∨ ∃ s t, u = .zero s ∧ v = .zero t

theorem alike_iff (u v : UnpackedFloat) : Alike u v ↔ (u.beq v || (u.isNaN && v.isNaN)) = true := by
  rw [Bool.or_eq_true, Bool.and_eq_true, UnpackedFloat.beq_iff_ne_notANumber_and_eq, UnpackedFloat.isNaN_iff,
    UnpackedFloat.isNaN_iff]
  constructor
  · rintro (rfl | ⟨s, t, rfl, rfl⟩)
    · by_cases hnan : u = .notANumber
      · exact .inr ⟨hnan, hnan⟩
      · exact .inl ⟨hnan, hnan, .inl rfl⟩
    · refine .inl ⟨nofun, nofun, ?_⟩
      cases s <;> cases t <;> simp
  · rintro (⟨-, -, rfl | ⟨rfl, rfl⟩ | ⟨rfl, rfl⟩⟩ | ⟨rfl, rfl⟩)
    · exact .inl rfl
    · exact .inr ⟨_, _, rfl, rfl⟩
    · exact .inr ⟨_, _, rfl, rfl⟩
    · exact .inl rfl

theorem same_iff (a b : Double) : Scalar.same a b = true ↔ Alike a.unpacked b.unpacked :=
  (alike_iff a.unpacked b.unpacked).symm

/-! ## Signs -/

section Signs

variable {u v w : UnpackedFloat}

theorem Alike.symm (h : Alike u v) : Alike v u := by
  rcases h with rfl | ⟨s, t, rfl, rfl⟩
  · exact .inl rfl
  · exact .inr ⟨t, s, rfl, rfl⟩

theorem Alike.trans (huv : Alike u v) (hvw : Alike v w) : Alike u w := by
  rcases huv with rfl | ⟨s, t, rfl, rfl⟩
  · exact hvw
  · rcases hvw with rfl | ⟨-, t', -, rfl⟩
    · exact .inr ⟨s, t, rfl, rfl⟩
    · exact .inr ⟨s, t', rfl, rfl⟩

theorem Alike.neg (h : Alike u v) : Alike u.neg v.neg := by
  rcases h with rfl | ⟨s, t, rfl, rfl⟩
  · exact .inl rfl
  · exact .inr ⟨-s, -t, rfl, rfl⟩

theorem Alike.abs (h : Alike u v) : Alike u.abs v.abs := by
  rcases h with rfl | ⟨s, t, rfl, rfl⟩
  · exact .inl rfl
  · exact .inl rfl

/-- Zeros compare alike. -/
theorem Alike.compare (h : Alike u v) (w : UnpackedFloat) : u.compare w = v.compare w := by
  rcases h with rfl | ⟨s, t, rfl, rfl⟩
  · rfl
  · cases w with
    | notANumber | zero => rfl
    | infinity r | finite r => cases r <;> rfl

theorem Alike.beq (h : Alike u v) (w : UnpackedFloat) : u.beq w = v.beq w :=
  congrArg (fun o : Option Ordering => o == some .eq) (h.compare w)

theorem Alike.lt (h : Alike u v) (w : UnpackedFloat) : u.lt w = v.lt w :=
  congrArg (fun o : Option Ordering => o == some .lt) (h.compare w)

/-- A negative number is the opposite of its absolute value. -/
theorem neg_abs_of_lt (h : u.lt (.zero .positive) = true) : u.abs.neg = u := by
  cases u with
  | notANumber | zero => cases h
  | infinity s | finite s => cases s <;> first | rfl | cases h

/-- A number that is not negative is its absolute value. -/
theorem abs_of_not_lt (h : u.lt (.zero .positive) = false) : Alike u.abs u := by
  cases u with
  | notANumber => exact .inl rfl
  | zero s => exact .inr ⟨.positive, s, rfl, rfl⟩
  | infinity s | finite s => cases s <;> first | exact .inl rfl | cases h

end Signs

theorem eq_eq (a b : Double) : Scalar.eq a b = a.unpacked.beq b.unpacked := rfl

theorem lt_eq (a b : Double) : Scalar.lt a b = a.unpacked.lt b.unpacked :=
  Bool.eq_iff_iff.mpr (decide_eq_true_iff.trans decide_eq_true_iff)

theorem unpacked_mul {a b : Double} (h : Canonical (UnpackedFloat.mul Format.binary64 a.unpacked b.unpacked)) :
    (combine Float.mul a b).unpacked = UnpackedFloat.mul Format.binary64 a.unpacked b.unpacked := by
  rw [combine, unpacked_ofFloat]
  exact unpack_mul a.toFloat b.toFloat h

/-- **Doubles can be read as they were written**, as coefficients. -/
instance : Scalar.Coefficients Double where
  same_refl a := (same_iff a a).mpr (.inl rfl)
  same_symm h := (same_iff _ _).mpr ((same_iff _ _).mp h).symm
  same_trans hab hbc := (same_iff _ _).mpr (((same_iff _ _).mp hab).trans ((same_iff _ _).mp hbc))
  eq_one h := ((same_iff _ _).mp h).beq _
  isZero_eq h := ((same_iff _ _).mp h).beq _
  lt_zero h := by
    rw [lt_eq, lt_eq]
    exact ((same_iff _ _).mp h).lt _
  neg_same {a b} h := (same_iff _ _).mpr (by
    change Alike (neg a).unpacked (neg b).unpacked
    rw [unpacked_neg, unpacked_neg]
    exact ((same_iff a b).mp h).neg)
  abs_same {a b} h := (same_iff _ _).mpr (by
    change Alike (abs a).unpacked (abs b).unpacked
    rw [unpacked_abs, unpacked_abs]
    exact ((same_iff a b).mp h).abs)
  one_mul a := (same_iff _ _).mpr (by
    have hmul := one_mul_unpacked (canonical_unpacked a)
    change Alike (combine Float.mul Scalar.one a).unpacked a.unpacked
    rw [unpacked_mul, unpacked_one, hmul]
    · exact .inl rfl
    · rw [unpacked_one, hmul]
      exact canonical_unpacked a)
  neg_one_mul a := (same_iff _ _).mpr (by
    have hmul := neg_one_mul_unpacked (canonical_unpacked a)
    have hone : (neg Scalar.one).unpacked = unit .negative := by rw [unpacked_neg, unpacked_one]; rfl
    change Alike (combine Float.mul (neg Scalar.one) a).unpacked (neg a).unpacked
    rw [unpacked_mul, hone, hmul, unpacked_neg]
    · exact .inl rfl
    · rw [hone, hmul]
      exact canonical_neg (canonical_unpacked a))
  neg_abs {a} h := (same_iff _ _).mpr (by
    change Alike (neg (abs a)).unpacked a.unpacked
    rw [lt_eq, unpacked_zero] at h
    rw [unpacked_neg, unpacked_abs, neg_abs_of_lt h]
    exact .inl rfl)
  abs_self {a} h := (same_iff _ _).mpr (by
    change Alike (abs a).unpacked a.unpacked
    rw [lt_eq, unpacked_zero] at h
    rw [unpacked_abs]
    exact abs_of_not_lt h)

end SignalFlow.Double
