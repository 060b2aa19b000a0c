import SignalFlow.Expr.Basic
import SignalFlow.Rewrite.Progress

/-!
# Algebraic identities

Removes `x+0`, `0+x`, `x-0`, `x*1`, `1*x`, `x/1`, `x^1`, `x^0`, `1^x` and `--x`. A product with zero stays: infinity
times zero is not zero.
-/

namespace SignalFlow.Rewrite

variable {ι α : Type} [Scalar α]

/-- **What an operator reduces to.** -/
inductive Reduct where
  | left
  | right
  | one

/-- The identity that holds of an operator and its operands, if there is one. -/
def reduct? : BinaryOp → Tree ι α → Tree ι α → Option Reduct
  | .add, a, b => if a.isLiteral Scalar.zero then some .right else if b.isLiteral Scalar.zero then some .left else none
  | .sub, _, b => if b.isLiteral Scalar.zero then some .left else none
  | .mul, a, b => if a.isLiteral Scalar.one then some .right else if b.isLiteral Scalar.one then some .left else none
  | .div, _, b => if b.isLiteral Scalar.one then some .left else none
  | .pow, a, b =>
    if b.isLiteral Scalar.one then some .left
    else if b.isLiteral Scalar.zero || a.isLiteral Scalar.one then some .one
    else none
  | _, _, _ => none

/-- Applies the identity that holds at the root of a tree. -/
def reduceRoot (t : Tree ι α) (p : Progress ι) : Tree ι α × Progress ι :=
  match t with
  | .negate l (.negate m u) => (u, p.rewrite [m, l])
  | .binary l op a b =>
    match reduct? op a b with
    | some .left => (a, p.rewrite (l :: b.discard))
    | some .right => (b, p.rewrite (l :: a.discard))
    | some .one => (.literal l Scalar.one, p.rewrite (a.discard ++ b.discard))
    | none => (.binary l op a b, p)
  | t => (t, p)

mutual

/-- **Applies the identities to a tree**, operands before operators. -/
def reduce : Tree ι α → Progress ι → Tree ι α × Progress ι
  | .literal l v, p => (.literal l v, p)
  | .var l name, p => (.var l name, p)
  | .infinity l, p => (.infinity l, p)
  | .negate l t, p =>
    let (t, p) := reduce t p
    reduceRoot (.negate l t) p
  | .binary l op a b, p =>
    let (a, p) := reduce a p
    let (b, p) := reduce b p
    reduceRoot (.binary l op a b) p
  | .list l items, p =>
    let (items, p) := reduceAll items p
    (.list l items, p)

/-- Applies the identities to several trees. -/
def reduceAll : List (Tree ι α) → Progress ι → List (Tree ι α) × Progress ι
  | [], p => ([], p)
  | t :: ts, p =>
    let (t, p) := reduce t p
    let (ts, p) := reduceAll ts p
    (t :: ts, p)

end

end SignalFlow.Rewrite

/-- Applies the identities to an expression; answers how many were applied. -/
def SignalFlow.Expr.eliminateIdentities {α : Type} [Scalar α] (e : Expr α) : Expr α × Nat :=
  let (tree, p) := Rewrite.reduce e.tree ⟨e.slots.free, 0⟩
  ({ e with tree, slots := { e.slots with free := p.free } }, p.count)
