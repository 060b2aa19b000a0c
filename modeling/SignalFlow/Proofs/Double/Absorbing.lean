import SignalFlow.Proofs.Double.Coefficients
import SignalFlow.Proofs.Rewrite.Undefined

/-!
# Doubles that are no finite number

Zero times anything is zero or a NaN, infinity plus anything is infinite or a NaN, and so on for every operation but the
power: the defects of a result follow from those of the operands, read off the unpacked doubles. What has both defects
is a NaN, so a product of zero and infinity is one, and so is a quotient of zeros or of infinities.
-/

namespace SignalFlow

open Float.Model (UnpackedFloat Format)
open Float.Model.UnpackedFloat (Sign)

namespace Double

/-- Zero of either sign, or no number. -/
def Blank (u : UnpackedFloat) : Prop := (∃ s, u = .zero s) ∨ u = .notANumber

/-- Infinity of either sign, or no number. -/
def Endless (u : UnpackedFloat) : Prop := (∃ s, u = .infinity s) ∨ u = .notANumber

theorem isNaN_iff (a : Double) : Scalar.isNaN a = true ↔ a.unpacked = .notANumber := UnpackedFloat.isNaN_iff

theorem isZero_iff (a : Double) : Scalar.isZero a = true ↔ ∃ s, a.unpacked = .zero s := by
  rw [Scalar.isZero, eq_eq, unpacked_zero, UnpackedFloat.beq_iff_ne_notANumber_and_eq]
  constructor
  · rintro ⟨-, -, h | ⟨h, -⟩ | ⟨h, -⟩⟩
    · exact ⟨_, h⟩
    · exact ⟨_, h⟩
    · exact ⟨_, h⟩
  · rintro ⟨s, h⟩
    rw [h]
    cases s <;> simp

theorem vanishes_iff (a : Double) : (Scalar.defect a).vanishes ↔ Blank a.unpacked :=
  or_congr (isZero_iff a) (isNaN_iff a)

theorem diverges_iff (a : Double) : (Scalar.defect a).diverges ↔ Endless a.unpacked := by
  change a.unpacked.isFinite = false ↔ _
  cases a.unpacked with
  | zero | finite => simp [Endless, UnpackedFloat.isFinite]
  | infinity s => exact ⟨fun _ => .inl ⟨s, rfl⟩, fun _ => rfl⟩
  | notANumber => exact ⟨fun _ => .inr rfl, fun _ => rfl⟩

section Predicates

variable {u : UnpackedFloat}

theorem Blank.canonical (h : Blank u) : Canonical u := by
  rcases h with ⟨s, rfl⟩ | rfl <;> trivial

theorem Endless.canonical (h : Endless u) : Canonical u := by
  rcases h with ⟨s, rfl⟩ | rfl <;> trivial

/-- What has both defects is no number. -/
theorem Blank.eq_notANumber (h : Blank u) (hinfinite : Endless u) : u = .notANumber := by
  rcases h with ⟨s, rfl⟩ | h
  · rcases hinfinite with ⟨t, h⟩ | h <;> cases h
  · exact h

theorem undefined_iff (a : Double) : (Scalar.defect a).Undefined ↔ a.unpacked = .notANumber := by
  rw [Defect.Undefined, vanishes_iff, diverges_iff]
  exact ⟨fun h => h.1.eq_notANumber h.2, fun h => ⟨.inr h, .inr h⟩⟩

theorem Blank.neg (h : Blank u) : Blank u.neg := by
  rcases h with ⟨s, rfl⟩ | rfl
  · exact .inl ⟨-s, rfl⟩
  · exact .inr rfl

theorem Endless.neg (h : Endless u) : Endless u.neg := by
  rcases h with ⟨s, rfl⟩ | rfl
  · exact .inl ⟨-s, rfl⟩
  · exact .inr rfl

theorem Blank.abs (h : Blank u) : Blank u.abs := by
  rcases h with ⟨s, rfl⟩ | rfl
  · exact .inl ⟨.positive, rfl⟩
  · exact .inr rfl

theorem Endless.abs (h : Endless u) : Endless u.abs := by
  rcases h with ⟨s, rfl⟩ | rfl
  · exact .inl ⟨.positive, rfl⟩
  · exact .inr rfl

end Predicates

/-! ## Sums, products and quotients -/

section Operations

variable {u v : UnpackedFloat}

theorem add_notANumber (h : u = .notANumber ∨ v = .notANumber) :
    UnpackedFloat.add Format.binary64 u v = .notANumber := by
  rcases h with rfl | rfl
  · rfl
  · cases u <;> rfl

theorem Blank.add (hu : Blank u) (hv : Blank v) : Blank (UnpackedFloat.add Format.binary64 u v) := by
  rcases hu with ⟨s, rfl⟩ | rfl
  · rcases hv with ⟨t, rfl⟩ | rfl
    · cases s <;> cases t <;> exact .inl ⟨_, rfl⟩
    · exact .inr rfl
  · exact .inr rfl

theorem add_infinity (s t : Sign) : Endless (UnpackedFloat.add Format.binary64 (.infinity s) (.infinity t)) := by
  cases s <;> cases t
  case negative.negative | positive.positive => exact .inl ⟨_, rfl⟩
  case negative.positive | positive.negative => exact .inr rfl

theorem Endless.add (h : Endless u ∨ Endless v) : Endless (UnpackedFloat.add Format.binary64 u v) := by
  rcases h with (⟨s, rfl⟩ | rfl) | (⟨s, rfl⟩ | rfl)
  · cases v with
    | zero | finite => exact .inl ⟨_, rfl⟩
    | infinity t => exact add_infinity s t
    | notANumber => exact .inr rfl
  · exact .inr rfl
  · cases u with
    | zero | finite => exact .inl ⟨_, rfl⟩
    | infinity t => exact add_infinity t s
    | notANumber => exact .inr rfl
  · exact .inr (add_notANumber (.inr rfl))

/-- Subtracting is adding the opposite. -/
theorem sub_eq_add_neg (u v : UnpackedFloat) :
    UnpackedFloat.sub Format.binary64 u v = UnpackedFloat.add Format.binary64 u v.neg := by
  cases u with
  | finite s m e hm =>
    cases v with
    | finite t n f hn =>
      cases t <;> simp only [UnpackedFloat.sub, UnpackedFloat.add, UnpackedFloat.neg, Sign.apply, Int.sub_eq_add_neg,
        Int.neg_neg]
    | _ => rfl
  | _ => cases v <;> rfl

theorem Blank.mul (h : Blank u ∨ Blank v) : Blank (UnpackedFloat.mul Format.binary64 u v) := by
  rcases h with (⟨s, rfl⟩ | rfl) | (⟨s, rfl⟩ | rfl)
  · cases v with
    | zero | finite => exact .inl ⟨_, rfl⟩
    | infinity | notANumber => exact .inr rfl
  · exact .inr rfl
  · cases u with
    | zero | finite => exact .inl ⟨_, rfl⟩
    | infinity | notANumber => exact .inr rfl
  · cases u <;> exact .inr rfl

theorem Endless.mul (h : Endless u ∨ Endless v) : Endless (UnpackedFloat.mul Format.binary64 u v) := by
  rcases h with (⟨s, rfl⟩ | rfl) | (⟨s, rfl⟩ | rfl)
  · cases v with
    | infinity | finite => exact .inl ⟨_, rfl⟩
    | zero | notANumber => exact .inr rfl
  · exact .inr rfl
  · cases u with
    | infinity | finite => exact .inl ⟨_, rfl⟩
    | zero | notANumber => exact .inr rfl
  · cases u <;> exact .inr rfl

theorem Blank.div (h : Blank u ∨ Endless v) : Blank (UnpackedFloat.div Format.binary64 u v) := by
  rcases h with (⟨s, rfl⟩ | rfl) | (⟨s, rfl⟩ | rfl)
  · cases v with
    | infinity | finite => exact .inl ⟨_, rfl⟩
    | zero | notANumber => exact .inr rfl
  · exact .inr rfl
  · cases u with
    | zero | finite => exact .inl ⟨_, rfl⟩
    | infinity | notANumber => exact .inr rfl
  · cases u <;> exact .inr rfl

theorem Endless.div (h : Endless u ∨ Blank v) : Endless (UnpackedFloat.div Format.binary64 u v) := by
  rcases h with (⟨s, rfl⟩ | rfl) | (⟨s, rfl⟩ | rfl)
  · cases v with
    | zero | finite => exact .inl ⟨_, rfl⟩
    | infinity | notANumber => exact .inr rfl
  · exact .inr rfl
  · cases u with
    | infinity | finite => exact .inl ⟨_, rfl⟩
    | zero | notANumber => exact .inr rfl
  · cases u <;> exact .inr rfl

end Operations

/-! ## Remainders -/

section Remainder

open Binary64

variable {x y : Float}

theorem decode_nan (h : x.toModel.unpack = .notANumber) : decode x = .nan := by
  have hnan : x.isNaN = true := UnpackedFloat.isNaN_iff.mpr h
  rw [Float.isNaN_eq_decide_eq_nan, decide_eq_true_iff] at hnan
  rw [hnan]
  decide +kernel

theorem decode_infinite {s : Sign} (h : x.toModel.unpack = .infinity s) :
    ∃ negative, decode x = .infinite negative := by
  have hbits : UnpackedFloat.pack Format.binary64 x.toModel.unpack = x.toModel.toBits.toBitVec :=
    UnpackedFloat.pack_unpack_of_valid x.toModel.valid
  rw [h] at hbits
  have hx : x.toBits = UInt64.ofBitVec (UnpackedFloat.packedInfinity Format.binary64 s) :=
    UInt64.toBitVec_inj.mp hbits.symm
  refine ⟨s == .negative, ?_⟩
  rw [decode, hx]
  cases s <;> decide +kernel

/-- A zero has the mantissa zero. -/
theorem decode_zero {s : Sign} (h : x.toModel.unpack = .zero s) :
    ∃ negative, decode x = .finite negative 0 minExponent := by
  have hbits := (UnpackedFloat.unpack_eq_zero_iff_of_valid x.toModel.valid).mp h
  have hx : x.toBits = UInt64.ofBitVec (UnpackedFloat.packedZero Format.binary64 s) := UInt64.toBitVec_inj.mp hbits
  refine ⟨s == .negative, ?_⟩
  rw [decode, hx]
  cases s <;> decide +kernel

theorem unpack_encode_zero (negative : Bool) (q : Int) : ∃ s, (encode negative 0 q).toModel.unpack = .zero s := by
  have hzero : encode negative 0 q = if negative then -0.0 else 0.0 := by
    simp only [encode, beq_self_eq_true, if_true]
    cases negative <;> decide +kernel
  rw [hzero]
  cases negative
  · exact ⟨.positive, by rfl⟩
  · exact ⟨.negative, by rfl⟩

theorem unpack_invalid : (0.0 / 0.0 : Float).toModel.unpack = .notANumber := by
  rfl

/-- There is no remainder of an infinite dividend, nor by zero. -/
theorem remainder_notANumber (h : Endless x.toModel.unpack ∨ Blank y.toModel.unpack) :
    (remainder x y).toModel.unpack = .notANumber := by
  rw [remainder]
  rcases h with (⟨s, hx⟩ | hx) | ⟨s, hy⟩ | hy
  · obtain ⟨negative, hinfinite⟩ := decode_infinite hx
    rw [hinfinite]
    exact unpack_invalid
  · rw [decode_nan hx]
    exact unpack_invalid
  · obtain ⟨negative, hzero⟩ := decode_zero hy
    rw [hzero]
    cases decode x <;> exact unpack_invalid
  · rw [decode_nan hy]
    cases decode x <;> exact unpack_invalid

/-- A remainder of zero is zero, or no number. -/
theorem blank_remainder (h : Blank x.toModel.unpack) : Blank (remainder x y).toModel.unpack := by
  rcases h with ⟨s, hx⟩ | hx
  · obtain ⟨negative, hzero⟩ := decode_zero hx
    rw [remainder, hzero]
    cases decode y with
    | nan => exact .inr unpack_invalid
    | infinite => exact .inl ⟨s, hx⟩
    | finite sign b q =>
      dsimp only
      split
      · exact .inr unpack_invalid
      · rw [remainderUnits, Nat.zero_mul, Nat.zero_mod]
        exact .inl (unpack_encode_zero negative _)
  · exact .inr (remainder_notANumber (.inl (.inr hx)))

end Remainder

/-! ## Doubles -/

/-- **An operation has a defect** if it has it before it is rounded. -/
theorem le_defect_combine {f : Float → Float → Float} {op : Format → UnpackedFloat → UnpackedFloat → UnpackedFloat}
    {d : Defect} (a b : Double) (hf : ∀ x y : Float, (f x y).toModel.unpack = UnpackedFloat.unpack Format.binary64
      (UnpackedFloat.pack Format.binary64 (op Format.binary64 x.toModel.unpack y.toModel.unpack)))
    (hvanishes : d.vanishes → Blank (op Format.binary64 a.unpacked b.unpacked))
    (hdiverges : d.diverges → Endless (op Format.binary64 a.unpacked b.unpacked)) :
    d ≤ Scalar.defect (combine f a b) := by
  -- Neither zero nor what is not finite is rounded.
  have hexact : Canonical (op Format.binary64 a.unpacked b.unpacked) →
      (combine f a b).unpacked = op Format.binary64 a.unpacked b.unpacked := fun h => by
    rw [combine, unpacked_ofFloat, hf]
    exact unpack_pack h
  refine ⟨fun h => (vanishes_iff _).mpr ?_, fun h => (diverges_iff _).mpr ?_⟩
  · rw [hexact (hvanishes h).canonical]
    exact hvanishes h
  · rw [hexact (hdiverges h).canonical]
    exact hdiverges h

/-- **The defects of a sum.** -/
theorem defect_add_le {d e : Defect} {u v : UnpackedFloat} (hd : d ≤ ⟨Blank u, Endless u⟩)
    (he : e ≤ ⟨Blank v, Endless v⟩) :
    BinaryOp.add.defect d e ≤
      ⟨Blank (UnpackedFloat.add Format.binary64 u v), Endless (UnpackedFloat.add Format.binary64 u v)⟩ where
  vanishes h := by
    rcases h with ⟨hdv, hev⟩ | hundefined | hundefined
    · exact (hd.vanishes hdv).add (he.vanishes hev)
    · exact .inr (add_notANumber (.inl ((hundefined.mono hd).1.eq_notANumber (hundefined.mono hd).2)))
    · exact .inr (add_notANumber (.inr ((hundefined.mono he).1.eq_notANumber (hundefined.mono he).2)))
  diverges h := Endless.add (h.imp hd.diverges he.diverges)

theorem defect_le (a : Double) : Scalar.defect a ≤ ⟨Blank a.unpacked, Endless a.unpacked⟩ :=
  ⟨(vanishes_iff a).mp, (diverges_iff a).mp⟩

theorem unpacked_mod (a b : Double) :
    (Scalar.mod a b).unpacked = (Binary64.remainder a.toFloat b.toFloat).toModel.unpack := unpacked_ofFloat _ _

/-- A number that is equal to one is one. -/
theorem unpacked_of_eq_one {a : Double} (h : Scalar.eq a Scalar.one = true) : a.unpacked = unit .positive := by
  rw [eq_eq, unpacked_one, UnpackedFloat.beq_iff_ne_notANumber_and_eq] at h
  obtain ⟨-, -, h | ⟨-, h⟩ | ⟨-, h⟩⟩ := h
  · exact h
  · cases h
  · cases h

/-- **Doubles absorb**: what is no number stays none. -/
instance : Scalar.Absorbing Double where
  isNaN_of_undefined {a} h := (isNaN_iff a).mpr ((undefined_iff a).mp h)
  defect_undefined := (undefined_iff _).mpr (unpacked_nan false)
  finite_of_isZero {a} h hdiverges := by
    obtain ⟨s, hs⟩ := (isZero_iff a).mp h
    rcases (diverges_iff a).mp hdiverges with ⟨t, ht⟩ | ht <;> cases hs.symm.trans ht
  finite_of_eq_one {a} h hdiverges := by
    rcases (diverges_iff a).mp hdiverges with ⟨t, ht⟩ | ht <;> cases (unpacked_of_eq_one h).symm.trans ht
  nonzero_of_eq_one {a} h hvanishes := by
    rcases (vanishes_iff a).mp hvanishes with ⟨t, ht⟩ | ht <;> cases (unpacked_of_eq_one h).symm.trans ht
  defect_le_neg a := by
    refine ⟨fun h => (vanishes_iff _).mpr ?_, fun h => (diverges_iff _).mpr ?_⟩
    · exact (unpacked_neg a).symm ▸ ((vanishes_iff a).mp h).neg
    · exact (unpacked_neg a).symm ▸ ((diverges_iff a).mp h).neg
  defect_le_abs a := by
    refine ⟨fun h => (vanishes_iff _).mpr ?_, fun h => (diverges_iff _).mpr ?_⟩
    · exact (unpacked_abs a).symm ▸ ((vanishes_iff a).mp h).abs
    · exact (unpacked_abs a).symm ▸ ((diverges_iff a).mp h).abs
  defect_le_apply op a b := by
    cases op with
    | add =>
      have hsum := defect_add_le (defect_le a) (defect_le b)
      exact le_defect_combine a b (fun _ _ => rfl) hsum.vanishes hsum.diverges
    | sub =>
      have hneg : Scalar.defect b ≤ ⟨Blank b.unpacked.neg, Endless b.unpacked.neg⟩ :=
        (defect_le b).trans ⟨Blank.neg, Endless.neg⟩
      have hsum := defect_add_le (defect_le a) hneg
      rw [← sub_eq_add_neg] at hsum
      exact le_defect_combine a b (fun _ _ => rfl) hsum.vanishes hsum.diverges
    | mul =>
      exact le_defect_combine a b (fun _ _ => rfl)
        (fun h => Blank.mul (h.imp (vanishes_iff a).mp (vanishes_iff b).mp))
        (fun h => Endless.mul (h.imp (diverges_iff a).mp (diverges_iff b).mp))
    | div =>
      exact le_defect_combine a b (fun _ _ => rfl)
        (fun h => Blank.div (h.imp (vanishes_iff a).mp (diverges_iff b).mp))
        (fun h => Endless.div (h.imp (diverges_iff a).mp (vanishes_iff b).mp))
    | mod =>
      have hundefined : (Scalar.defect a).diverges ∨ (Scalar.defect b).vanishes →
          (Scalar.defect (Scalar.mod a b)).Undefined := fun h => by
        rw [undefined_iff, unpacked_mod]
        exact remainder_notANumber (h.imp (diverges_iff a).mp (vanishes_iff b).mp)
      refine ⟨fun h => ?_, fun h => (hundefined h).2⟩
      rcases h with h | h
      · exact (vanishes_iff _).mpr ((unpacked_mod a b).symm ▸ blank_remainder ((vanishes_iff a).mp h))
      · exact (hundefined h).1
    | pow => exact Defect.undefinedIf_le False.elim
    | comma => exact le_refl _

end Double

end SignalFlow
