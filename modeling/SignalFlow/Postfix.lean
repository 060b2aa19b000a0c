import SignalFlow.Tree
import SignalFlow.Expr.Error

/-!
# Postfix code

An expression is evaluated by running its postfix code on a stack of values: a literal pushes its value, a variable the
value of its name, an operator takes its operands off the stack and pushes its result. The code lists the nodes of the
tree children before parents, so the first node that fails in this order ends the run.

An argument list has the value of its item when it has exactly one; any other list has no value.
-/

namespace SignalFlow

/-- **One step of postfix code.** -/
inductive Instr (α : Type) where
  | push (value : α)
  | load (name : String)
  | undefined
  | negate
  | apply (op : BinaryOp)
  /-- The end of an argument list with a number of items. -/
  | list (items : Nat)

namespace Tree

variable {ι α : Type}

mutual

/-- The code of a tree, followed by `rest`. -/
def codeOnto : Tree ι α → List (Instr α) → List (Instr α)
  | .literal _ v, rest => .push v :: rest
  | .var _ name, rest => .load name :: rest
  | .infinity _, rest => .undefined :: rest
  | .negate _ t, rest => t.codeOnto (.negate :: rest)
  | .binary _ op a b, rest => a.codeOnto (b.codeOnto (.apply op :: rest))
  | .list _ items, rest => codeAllOnto items (.list items.length :: rest)

/-- The code of several trees, one after the other. -/
def codeAllOnto : List (Tree ι α) → List (Instr α) → List (Instr α)
  | [], rest => rest
  | t :: ts, rest => t.codeOnto (codeAllOnto ts rest)

end

/-- **The postfix code of a tree.** -/
def code (t : Tree ι α) : List (Instr α) := t.codeOnto []

end Tree

namespace Instr

variable {α : Type} [Scalar α]

/-- What an instruction other than `load` does to the stack, whose top comes first. -/
def step : Instr α → List α → Except ExprError (List α)
  | .push v, stack => .ok (v :: stack)
  | .undefined, stack => .ok (Scalar.undefined :: stack)
  | .negate, v :: stack => .ok (Scalar.neg v :: stack)
  | .apply op, b :: a :: stack => .ok (op.apply a b :: stack)
  | .list 1, v :: stack => .ok (v :: stack)
  | .list 1, [] => .error (.invalidNode .missingOperand)
  | .list _, _ => .error .notEvaluable
  | _, _ => .error (.invalidNode .missingOperand)

/-- The value that a run leaves on top of the stack. -/
def top : List α → Except ExprError α
  | v :: _ => .ok v
  | [] => .error (.invalidNode .missingOperand)

end Instr

end SignalFlow
