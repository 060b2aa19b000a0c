import SignalFlow.Binary64
import SignalFlow.Decimal.Layout
import SignalFlow.Decimal.Numeral
import SignalFlow.Scalar

/-!
# Doubles as literals

A literal with a sign binds like a negation, and this holds of a NaN too, although its sign is not written. A `Float`
has a single NaN, so a `Double` is a number or a NaN with its sign. Three rules say where the sign comes from: negation
turns it, an operation on a NaN keeps the sign of its first NaN, and an operation on numbers without a result gives a
negative NaN.
-/

namespace SignalFlow

/-- **A double**: a number, finite or infinite, or a NaN with its sign. -/
inductive Double where
  | number (x : Float) (isNumber : x.isNaN = false)
  | nan (negative : Bool)

namespace Double

/-- The double of a float, with the sign that it has if it is a NaN. -/
def ofFloat (x : Float) (negative : Bool) : Double :=
  if h : x.isNaN = false then .number x h else .nan negative

/-- The float of a double. -/
def toFloat : Double → Float
  | .number x _ => x
  | .nan _ => 0.0 / 0.0

/-- A number is the float that it was made from. -/
theorem toFloat_ofFloat {x : Float} (h : x.isNaN = false) (negative : Bool) : (ofFloat x negative).toFloat = x := by
  rw [ofFloat, dif_pos h, toFloat]

/-- The number with the opposite sign. -/
def neg : Double → Double
  | .number x _ => ofFloat x.neg true
  | .nan negative => .nan !negative

/-- The number without its sign. -/
def abs : Double → Double
  | .number x _ => ofFloat x.abs false
  | .nan _ => .nan false

/-- The sign of the NaN that an operation on two doubles may give. -/
def nanSign : Double → Double → Bool
  | .nan negative, _ => negative
  | _, .nan negative => negative
  | _, _ => true

/-- **An operation on two doubles**, from the operation on floats. -/
def combine (f : Float → Float → Float) (a b : Double) : Double := ofFloat (f a.toFloat b.toFloat) (nanSign a b)

/-- Whether a double has a minus sign. -/
def isSigned : Double → Bool
  | .number x _ => x.toBits.toNat / Nat.pow 2 63 == 1
  | .nan negative => negative

end Double

/-- Doubles, with the rules of floating-point arithmetic throughout. -/
instance : Scalar Double where
  zero := .ofFloat 0.0 false
  one := .ofFloat 1.0 false
  undefined := .nan false
  neg := Double.neg
  abs := Double.abs
  add := Double.combine Float.add
  sub := Double.combine Float.sub
  mul := Double.combine Float.mul
  div := Double.combine Float.div
  pow := Double.combine Float.pow
  mod := Double.combine Binary64.remainder
  eq := fun a b => a.toFloat == b.toFloat
  lt := fun a b => decide (a.toFloat < b.toFloat)
  isNaN := fun a => a.toFloat.isNaN
  isFinite := fun a => a.toFloat.isFinite
  isSigned := Double.isSigned
  ofDecimal := fun digits exponent => .ofFloat (Decimal.toFloat digits exponent) false
  text := fun a => Decimal.plain.text a.toFloat

end SignalFlow
