import SignalFlow.Reader.Grammar
import SignalFlow.Reader.Call
import SignalFlow.Expr.Basic

/-!
# Expressions from text

`Expr.ofText` reads the tree of a text, gives its nodes their slots, children before parents, expands the calls of `exp`
and dissolves the groups of one item. Argument lists with more items stay.
-/

namespace SignalFlow.Expr

variable {α : Type} [Scalar α]

/-- Expands the calls and dissolves the groups of a tree in its slots. -/
def settle (tree : Tree Id α) (slots : Slots) : Except ExprError (Expr α) :=
  match Reader.expandCalls tree slots with
  | .error f => .error (.malformedCall f)
  | .ok (tree, slots) =>
    let (tree, free) := Reader.ungroup tree slots.free
    .ok { tree, slots := { slots with free } }

/-- **The expression of a text.** -/
def ofText (text : String) : Except ExprError (Expr α) :=
  match Reader.readTerm text with
  | .error e => .error (.read e)
  | .ok t =>
    let (tree, slots) := t.place {}
    settle tree slots

end SignalFlow.Expr
