/-!
# The arithmetic of literals

Expressions are built over any type of numbers with the operations of `Scalar`. The class asks for operations only and
for no laws: the program runs over doubles, where rounding breaks most of them, while a statement about values may
read the same expression in an exact field.
-/

namespace SignalFlow

/-- **The operations on literals.** -/
class Scalar (α : Type) where
  zero : α
  one : α
  /-- The value of an expression that stands for infinity. -/
  undefined : α
  neg : α → α
  abs : α → α
  add : α → α → α
  sub : α → α → α
  mul : α → α → α
  div : α → α → α
  pow : α → α → α
  /-- The remainder of a division. -/
  mod : α → α → α
  /-- Equality of values; a value may differ from itself. -/
  eq : α → α → Bool
  lt : α → α → Bool
  /-- Whether this is no number at all. -/
  isNaN : α → Bool
  isFinite : α → Bool
  /-- Whether a minus sign is written in front. -/
  isSigned : α → Bool
  /-- The number `digits · 10^exponent`. -/
  ofDecimal : Nat → Int → α
  /-- How the number is written. -/
  text : α → String

namespace Scalar

variable {α : Type} [Scalar α]

/-- The number `-1`. -/
def minusOne : α := neg one

/-- Whether two literals are the same literal: equal numbers, or no numbers at all. -/
def same (a b : α) : Bool := eq a b || (isNaN a && isNaN b)

/-- Whether a number is zero, of either sign. -/
def isZero (a : α) : Bool := eq a zero

end Scalar

end SignalFlow
