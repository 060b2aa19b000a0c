import Mathlib
import SignalFlow.Double

/-!
# Unpacked doubles

A float is a bit pattern, and the operations on floats unpack it to a sign, a mantissa and an exponent, compute and pack
the result again. What is unpacked is `Canonical`, and a canonical result survives packing (`unpack_pack`). So negation
and the absolute value change nothing but the sign, and multiplying by one changes nothing (`one_mul_unpacked`).
-/

namespace SignalFlow.Double

open Float.Model (UnpackedFloat Format)
open Float.Model.UnpackedFloat (ExtendedMantissa Sign packComponents unpackSign unpackMantissa unpackExponent)

/-- **The form in which a float is unpacked**: the mantissa has 53 bits, or fewer at the smallest exponent. -/
def Canonical : UnpackedFloat → Prop
  | .finite _ m e _ => -1074 ≤ e ∧ e ≤ 971 ∧ (m.log2 = 52 ∨ m.log2 < 52 ∧ e = -1074)
  | _ => True

/-! ## Packing -/

theorem finite_congr {s : Sign} {m n : Nat} {e f : Int} {hm : 0 < m} {hn : 0 < n} (hmn : m = n) (hef : e = f) :
    UnpackedFloat.finite s m e hm = .finite s n f hn := by
  subst hmn hef
  rfl

/-- A mantissa with its leading bit. -/
theorem toNat_leading (v : BitVec 52) : (1#1 ++ v).toNat = Nat.pow 2 52 + v.toNat := by
  rw [BitVec.toNat_append, ← Nat.shiftLeft_add_eq_or_of_lt v.isLt]
  rfl

theorem toNat_ne_zero {n : Nat} {v : BitVec n} (h : v ≠ 0#n) : v.toNat ≠ 0 := fun hzero =>
  h (BitVec.eq_of_toNat_eq (hzero.trans BitVec.toNat_zero.symm))

/-- **The float of a sign, an exponent and a mantissa**, as bits. -/
def assemble (s : Sign) (e : BitVec 11) (m : BitVec 52) : UnpackedFloat :=
  if e = -1#11 then if m = 0#52 then .infinity s else .notANumber
  else if e = 0#11 then
    if h : m = 0#52 then .zero s else .finite s m.toNat (e.toNat - 1075 + 1) (Nat.pos_of_ne_zero (toNat_ne_zero h))
  else .finite s (1#1 ++ m).toNat (e.toNat - 1075) (toNat_leading m ▸ Nat.add_pos_left (Nat.two_pow_pos 52) _)

theorem unpack_eq (b : BitVec Format.binary64.numBits) : UnpackedFloat.unpack Format.binary64 b =
    assemble (Sign.ofBitVec (unpackSign b)) (unpackExponent b) (unpackMantissa b) := rfl

theorem unpack_packComponents (s : Sign) (e : BitVec 11) (m : BitVec 52) :
    UnpackedFloat.unpack Format.binary64 (packComponents Format.binary64 s e m) = assemble s e m := by
  rw [unpack_eq, UnpackedFloat.unpackMantissa_packComponents, UnpackedFloat.unpackExponent_packComponents,
    UnpackedFloat.unpackSign_packComponents, Sign.ofBitVec_toBitVec]

theorem canonical_assemble (s : Sign) (e : BitVec 11) (m : BitVec 52) : Canonical (assemble s e m) := by
  have hmantissa : m.toNat < Nat.pow 2 52 := m.isLt
  have hexponent : e.toNat < 2048 := e.isLt
  rw [assemble]
  by_cases hmax : e = -1#11
  · rw [if_pos hmax]
    by_cases hm : m = 0#52
    · rw [if_pos hm]
      trivial
    · rw [if_neg hm]
      trivial
  have hmax' : e.toNat ≠ 2047 := fun h => hmax (BitVec.eq_of_toNat_eq h)
  rw [if_neg hmax]
  by_cases hzero : e = 0#11
  · rw [if_pos hzero]
    by_cases hm : m = 0#52
    · rw [dif_pos hm]
      trivial
    · rw [dif_neg hm]
      have hlog := (Nat.log2_lt (toNat_ne_zero hm)).mpr hmantissa
      have hexp : e.toNat = 0 := hzero ▸ BitVec.toNat_zero
      exact ⟨by omega, by omega, .inr ⟨hlog, by omega⟩⟩
  · rw [if_neg hzero]
    have hexp := toNat_ne_zero hzero
    have hlead := toNat_leading m
    have hlog : (1#1 ++ m).toNat.log2 = 52 := (Nat.log2_eq_iff (by omega)).mpr
      ⟨hlead ▸ Nat.le_add_right _ _, hlead ▸ Nat.add_lt_add_left hmantissa _⟩
    exact ⟨by omega, by omega, .inl hlog⟩

/-- **What is unpacked is canonical.** -/
theorem canonical_unpack (b : BitVec Format.binary64.numBits) :
    Canonical (UnpackedFloat.unpack Format.binary64 b) :=
  canonical_assemble _ _ _

theorem unpack_pack_subnormal {s : Sign} {m : Nat} (hm : 0 < m) (hlog : m.log2 < 52) :
    UnpackedFloat.unpack Format.binary64 (UnpackedFloat.pack Format.binary64 (.finite s m (-1074) hm)) =
      .finite s m (-1074) hm := by
  have hlt : m < Nat.pow 2 52 := (Nat.log2_lt hm.ne').mp hlog
  have htoNat : (BitVec.ofNat 52 m).toNat = m := by
    rw [BitVec.toNat_ofNat]
    exact Nat.mod_eq_of_lt hlt
  have hne : BitVec.ofNat 52 m ≠ 0#52 := fun h => by
    have hzero : m = 0 := htoNat ▸ congrArg BitVec.toNat h
    omega
  have hpack : UnpackedFloat.pack Format.binary64 (.finite s m (-1074) hm) =
      packComponents Format.binary64 s 0#11 (BitVec.ofNat 52 m) := by
    unfold UnpackedFloat.pack
    dsimp only
    rw [if_neg (by decide), if_neg (by change ¬ m.log2 + 1 = 53; omega)]
  rw [hpack, unpack_packComponents, assemble, if_neg (by decide), if_pos rfl, dif_neg hne]
  exact finite_congr htoNat rfl

theorem unpack_pack_normal {s : Sign} {m : Nat} {e : Int} (hm : 0 < m) (hlog : m.log2 = 52) (hlow : -1074 ≤ e)
    (hhigh : e ≤ 971) :
    UnpackedFloat.unpack Format.binary64 (UnpackedFloat.pack Format.binary64 (.finite s m e hm)) =
      .finite s m e hm := by
  obtain ⟨hle, hlt⟩ : Nat.pow 2 52 ≤ m ∧ m < Nat.pow 2 53 := (Nat.log2_eq_iff hm.ne').mp hlog
  have hpack : UnpackedFloat.pack Format.binary64 (.finite s m e hm) =
      packComponents Format.binary64 s (BitVec.ofNat 11 (e + 1075).toNat) (BitVec.ofNat 52 m) := by
    unfold UnpackedFloat.pack
    dsimp only
    have hbias : e + (Format.binary64.exponentBias : Int) + (Format.binary64.mantissaBitsWithoutImplicit : Int) =
        e + 1075 := by
      change e + 1023 + 52 = e + 1075
      omega
    rw [hbias, if_neg (by change ¬ 2048 ≤ (e + 1075).toNat + 1; omega), if_pos (by rw [hlog]; rfl)]
  have htoNat : (BitVec.ofNat 11 (e + 1075).toNat).toNat = (e + 1075).toNat := by
    rw [BitVec.toNat_ofNat]
    exact Nat.mod_eq_of_lt (by change _ < 2048; omega)
  have hmax : BitVec.ofNat 11 (e + 1075).toNat ≠ -1#11 := fun h => by
    have hvalue : (e + 1075).toNat = 2047 := htoNat ▸ congrArg BitVec.toNat h
    omega
  have hzero : BitVec.ofNat 11 (e + 1075).toNat ≠ 0#11 := fun h => by
    have hvalue : (e + 1075).toNat = 0 := htoNat ▸ congrArg BitVec.toNat h
    omega
  have hmantissa : (1#1 ++ BitVec.ofNat 52 m).toNat = m := by
    rw [toNat_leading, BitVec.toNat_ofNat]
    change Nat.pow 2 52 + m % Nat.pow 2 52 = m
    have hdouble : Nat.pow 2 53 = Nat.pow 2 52 + Nat.pow 2 52 := rfl
    rw [Nat.mod_eq_sub_mod hle, Nat.mod_eq_of_lt (by omega), Nat.add_sub_cancel' hle]
  rw [hpack, unpack_packComponents, assemble, if_neg hmax, if_neg hzero]
  exact finite_congr hmantissa (by omega)

/-- **A canonical float survives packing.** -/
theorem unpack_pack {u : UnpackedFloat} (h : Canonical u) :
    UnpackedFloat.unpack Format.binary64 (UnpackedFloat.pack Format.binary64 u) = u := by
  cases u with
  | notANumber => rfl
  | infinity s | zero s => cases s <;> rfl
  | finite s m e hm =>
    obtain ⟨hlow, hhigh, hlog | ⟨hlog, rfl⟩⟩ := h
    · exact unpack_pack_normal hm hlog hlow hhigh
    · exact unpack_pack_subnormal hm hlog

/-! ## Operations -/

theorem canonical_neg {u : UnpackedFloat} (h : Canonical u) : Canonical u.neg := by
  cases u <;> exact h

theorem canonical_abs {u : UnpackedFloat} (h : Canonical u) : Canonical u.abs := by
  cases u <;> exact h

/-- Negation changes the sign. -/
theorem unpack_neg (x : Float) : x.neg.toModel.unpack = x.toModel.unpack.neg :=
  unpack_pack (canonical_neg (canonical_unpack x.toModel.toBits.toBitVec))

/-- The absolute value drops the sign. -/
theorem unpack_abs (x : Float) : x.abs.toModel.unpack = x.toModel.unpack.abs :=
  unpack_pack (canonical_abs (canonical_unpack x.toModel.toBits.toBitVec))

/-! ## Rounding -/

/-- A mantissa without further bits. -/
abbrev exactMantissa (m : Nat) : ExtendedMantissa := ⟨m, false, false⟩

/-- Zeros are shifted out without a trace. -/
theorem shiftRight_exact (m k : Nat) : exactMantissa (Nat.pow 2 k * m) >>> k = exactMantissa m := by
  induction k generalizing m with
  | zero =>
    rw [show Nat.pow 2 0 * m = m from Nat.one_mul m]
    rfl
  | succ k ih =>
    have hpow : Nat.pow 2 (k + 1) * m = Nat.pow 2 k * (2 * m) := Nat.mul_assoc (Nat.pow 2 k) 2 m
    change (exactMantissa (Nat.pow 2 (k + 1) * m) >>> k).shiftRightOne = exactMantissa m
    rw [hpow, ih, ExtendedMantissa.shiftRightOne, ExtendedMantissa.mk.injEq]
    refine ⟨Nat.mul_div_cancel_left m Nat.two_pos, ?_, rfl⟩
    rw [Nat.mul_mod_right]
    rfl

theorem log2_pow_mul {m : Nat} (hm : 0 < m) (k : Nat) : (Nat.pow 2 k * m).log2 = k + m.log2 := by
  induction k with
  | zero => rw [show Nat.pow 2 0 * m = m from Nat.one_mul m, Nat.zero_add]
  | succ k ih =>
    have hpow : Nat.pow 2 (k + 1) * m = 2 * (Nat.pow 2 k * m) := by
      rw [show Nat.pow 2 (k + 1) = 2 * Nat.pow 2 k from Nat.mul_comm (Nat.pow 2 k) 2, Nat.mul_assoc]
    have hne : Nat.pow 2 k * m ≠ 0 := (Nat.mul_pos (Nat.two_pow_pos k) hm).ne'
    rw [hpow, Nat.log2_two_mul hne, ih]
    omega

/-- The exponent that a float should have is the one of a canonical float. -/
theorem targetExponent_of_canonical {s : Sign} {m : Nat} {e : Int} {hm : 0 < m} (h : Canonical (.finite s m e hm)) :
    Format.binary64.targetExponent (m.log2 + 1 + e) = e := by
  obtain ⟨hlow, -, hlog⟩ := h
  change max ((m.log2 : Int) + 1 + e - 53) (-1074) = e
  omega

/-- **Rounding keeps a canonical float**, also when it is written with `k` zeros behind the mantissa. -/
theorem roundWithAccuracy_canonical {s t : Sign} {m : Nat} {e : Int} {hm : 0 < m} (h : Canonical (.finite t m e hm))
    (k : Nat) : UnpackedFloat.roundWithAccuracy Format.binary64 s (Nat.pow 2 k * m) (e - k) .exact =
      .finite s m e hm := by
  have htarget := targetExponent_of_canonical h
  have hfirst : UnpackedFloat.shiftToTargetExponent Format.binary64 (Nat.pow 2 k * m) (e - k) .exact =
      (exactMantissa m, e) := by
    have hlog := log2_pow_mul hm k
    have htotal : Float.Model.totalExponent (Nat.pow 2 k * m) (e - k) = m.log2 + 1 + e := by
      rw [Float.Model.totalExponent, hlog]
      omega
    rw [UnpackedFloat.shiftToTargetExponent, htotal, htarget, UnpackedFloat.shiftToExponent]
    have hshift : (e - (e - k)).toNat = k := by omega
    rw [hshift, Int.sub_add_cancel]
    exact Prod.ext (shiftRight_exact m k) rfl
  have hsecond : UnpackedFloat.shiftToTargetExponent Format.binary64 m e .exact = (exactMantissa m, e) := by
    rw [UnpackedFloat.shiftToTargetExponent, Float.Model.totalExponent, htarget, UnpackedFloat.shiftToExponent]
    rw [Int.sub_self]
    exact Prod.ext rfl (Int.add_zero e)
  have hrounded : (exactMantissa m).roundedMantissa = m := rfl
  unfold UnpackedFloat.roundWithAccuracy
  rw [hfirst]
  dsimp only
  rw [hrounded, hsecond]
  exact dif_neg hm.ne'

/-! ## Multiplying by one -/

/-- The number one, or minus one. -/
abbrev unit (s : Sign) : UnpackedFloat := .finite s (Nat.pow 2 52) (-52) (Nat.two_pow_pos 52)

theorem mul_unit_finite (s t : Sign) {m : Nat} {e : Int} {hm : 0 < m} (h : Canonical (.finite t m e hm)) :
    UnpackedFloat.mul Format.binary64 (unit s) (.finite t m e hm) = .finite (s * t) m e hm := by
  have hround := roundWithAccuracy_canonical (s := s * t) h 52
  rwa [show e - (52 : Nat) = -52 + e from Int.add_comm e (-52)] at hround

/-- **Multiplying by one changes nothing.** -/
theorem one_mul_unpacked {u : UnpackedFloat} (h : Canonical u) :
    UnpackedFloat.mul Format.binary64 (unit .positive) u = u := by
  cases u with
  | notANumber => rfl
  | infinity t | zero t => cases t <;> rfl
  | finite t m e hm =>
    rw [mul_unit_finite .positive t h]
    cases t <;> rfl

/-- **Multiplying by minus one changes the sign.** -/
theorem neg_one_mul_unpacked {u : UnpackedFloat} (h : Canonical u) :
    UnpackedFloat.mul Format.binary64 (unit .negative) u = u.neg := by
  cases u with
  | notANumber => rfl
  | infinity t | zero t => cases t <;> rfl
  | finite t m e hm =>
    rw [mul_unit_finite .negative t h]
    cases t <;> rfl

theorem unpack_mul (x y : Float) (h : Canonical (UnpackedFloat.mul Format.binary64 x.toModel.unpack y.toModel.unpack)) :
    (Float.mul x y).toModel.unpack = UnpackedFloat.mul Format.binary64 x.toModel.unpack y.toModel.unpack :=
  unpack_pack h

end SignalFlow.Double
