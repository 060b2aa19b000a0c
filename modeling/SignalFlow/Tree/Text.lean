import SignalFlow.Tree

/-!
# The text of an expression

Operators are written between their operands with the parentheses that precedence makes necessary: an operand is wrapped
when it binds more weakly than its place demands. Powers associate to the right, all other operators to the left. A
negative literal binds like a negation.
-/

namespace SignalFlow.Tree

variable {ι α : Type} [Scalar α]

/-- How strongly literals, names and lists bind. -/
def atomPrecedence : Nat := 5

/-- How strongly the text of a tree binds. -/
def precedence : Tree ι α → Nat
  | .binary _ op _ _ => op.precedence
  | .negate _ _ => negationPrecedence
  | .literal _ v => if Scalar.isSigned v && !Scalar.isZero v then negationPrecedence else atomPrecedence
  | _ => atomPrecedence

/-- The text between the operands of an operator. -/
def separator : BinaryOp → String
  | .comma => ", "
  | .add => " + "
  | .sub => " - "
  | op => op.symbol

/-- What the places of the left and the right operand of an operator demand. -/
def operandLevels : BinaryOp → Nat × Nat
  | .pow => (BinaryOp.pow.precedence + 1, BinaryOp.pow.precedence)
  | op => (op.precedence, op.precedence + 1)

/-- A text, in parentheses if it binds more weakly than `level`. -/
def wrap (level precedence : Nat) (s : String) : String :=
  if precedence < level then "(" ++ s ++ ")" else s

mutual

/-- The text of a tree in a place that demands `level`. -/
def textAt (level : Nat) : Tree ι α → String
  | .literal l v => wrap level (precedence (.literal l v : Tree ι α)) (Scalar.text v)
  | .var _ name => name
  | .infinity _ => "oo"
  | .negate _ t => wrap level negationPrecedence (negationSymbol ++ t.textAt negationPrecedence)
  | .binary _ op a b =>
    wrap level op.precedence (a.textAt (operandLevels op).1 ++ separator op ++ b.textAt (operandLevels op).2)
  | .list _ items => "(" ++ textItems items ++ ")"

/-- The texts of the items of a list, separated by commas. -/
def textItems : List (Tree ι α) → String
  | [] => ""
  | [t] => t.textAt 1
  | t :: u :: rest => t.textAt 1 ++ ", " ++ textItems (u :: rest)

end

/-- **The text of a tree.** -/
def text (t : Tree ι α) : String := t.textAt 0

end SignalFlow.Tree
