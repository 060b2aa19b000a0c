import SignalFlow.Expr.Basic
import SignalFlow.Rewrite.Progress

/-!
# Folding constants

An operator whose operands are all literals is replaced by its value. A division or remainder by a literal zero stays,
and so does an operator whose value is not finite, so that the symbolic form survives for later substitution.
-/

namespace SignalFlow.Rewrite

variable {ι α : Type} [Scalar α]

/-- Whether an operator divides. -/
def divides : BinaryOp → Bool
  | .div | .mod => true
  | _ => false

/-- The value of an operator on literals, if it may be computed. -/
def literalValue? : Tree ι α → Option α
  | .negate _ (.literal _ v) => some (Scalar.neg v)
  | .binary _ op (.literal _ v) (.literal _ w) =>
    if divides op && Scalar.isZero w then none else some (op.apply v w)
  | _ => none

/-- Folds the root of a tree. -/
def foldRoot (t : Tree ι α) (p : Progress ι) : Tree ι α × Progress ι :=
  match (literalValue? t).filter Scalar.isFinite with
  | some v => (.literal t.label v, p.rewrite (t.children.flatMap Tree.discard))
  | none => (t, p)

mutual

/-- **Folds the constants of a tree**, operands before operators. -/
def fold : Tree ι α → Progress ι → Tree ι α × Progress ι
  | .literal l v, p => (.literal l v, p)
  | .var l name, p => (.var l name, p)
  | .infinity l, p => (.infinity l, p)
  | .negate l t, p =>
    let (t, p) := fold t p
    foldRoot (.negate l t) p
  | .binary l op a b, p =>
    let (a, p) := fold a p
    let (b, p) := fold b p
    foldRoot (.binary l op a b) p
  | .list l items, p =>
    let (items, p) := foldAll items p
    (.list l items, p)

/-- Folds the constants of several trees. -/
def foldAll : List (Tree ι α) → Progress ι → List (Tree ι α) × Progress ι
  | [], p => ([], p)
  | t :: ts, p =>
    let (t, p) := fold t p
    let (ts, p) := foldAll ts p
    (t :: ts, p)

end

end SignalFlow.Rewrite

/-- Folds the constants of an expression; answers how many operators became literals. -/
def SignalFlow.Expr.foldConstants {α : Type} [Scalar α] (e : Expr α) : Expr α × Nat :=
  let (tree, p) := Rewrite.fold e.tree ⟨e.slots.free, 0⟩
  ({ e with tree, slots := { e.slots with free := p.free } }, p.count)
