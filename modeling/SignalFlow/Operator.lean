import SignalFlow.Scalar

/-!
# Operators

The binary operators of expressions: how each acts on numbers, how it is written and how strongly it binds.
-/

namespace SignalFlow

/-- **Operators with two operands.** -/
inductive BinaryOp where
  | add
  | sub
  | mul
  | div
  | pow
  | mod
  /-- Sequencing: the value is that of the right operand. -/
  | comma
deriving DecidableEq, Repr

namespace BinaryOp

/-- The value of an operator on numbers. Division by zero is left to the arithmetic. -/
def apply {α : Type} [Scalar α] : BinaryOp → α → α → α
  | .add, a, b => Scalar.add a b
  | .sub, a, b => Scalar.sub a b
  | .mul, a, b => Scalar.mul a b
  | .div, a, b => Scalar.div a b
  | .pow, a, b => Scalar.pow a b
  | .mod, a, b => Scalar.mod a b
  | .comma, _, b => b

/-- The sign of an operator. -/
def symbol : BinaryOp → String
  | .add => "+"
  | .sub => "-"
  | .mul => "*"
  | .div => "/"
  | .pow => "^"
  | .mod => "%"
  | .comma => ","

/-- How strongly an operator binds. Negation lies between products and powers, at 3. -/
def precedence : BinaryOp → Nat
  | .comma => 0
  | .add | .sub => 1
  | .mul | .div | .mod => 2
  | .pow => 4

/-- The operators of sums. -/
def isAdditive : BinaryOp → Bool
  | .add | .sub => true
  | _ => false

/-- The operators of products. -/
def isMultiplicative : BinaryOp → Bool
  | .mul | .div => true
  | _ => false

/-- Whether two operators belong to one chain: both of sums, or both of products. -/
def sameFamily (a b : BinaryOp) : Bool :=
  (a.isAdditive && b.isAdditive) || (a.isMultiplicative && b.isMultiplicative)

end BinaryOp

/-- The sign of negation. -/
def negationSymbol : String := "-"

/-- How strongly negation binds. -/
def negationPrecedence : Nat := 3

end SignalFlow
