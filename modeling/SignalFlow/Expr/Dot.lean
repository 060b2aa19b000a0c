import SignalFlow.Expr.Basic

/-!
# Drawing an expression

`dot` writes the tree as a directed graph for graph drawing tools: a line for every node, then for every operand an edge
with its index and a blue edge back to the parent.
-/

namespace SignalFlow.Expr

variable {α : Type} [Scalar α]

/-- What is written on a node. -/
def nodeLabel : Tree Id α → String
  | .literal _ v => Scalar.text v
  | .var _ name => name
  | .infinity _ => "oo"
  | .negate _ _ => negationSymbol
  | .binary _ op _ _ => op.symbol
  | .list _ _ => "list"

/-- A label between quotes: a quote in it is written with a backslash. -/
def quoteLabel (s : String) : String :=
  String.ofList ('"' :: s.toList.flatMap (fun c => if c == '"' then ['\\', '"'] else [c]) ++ ['"'])

/-- The name of a node in the drawing. -/
def nodeName (i : Id) : String := "N" ++ i.text

/-- The line of a node. -/
def nodeLine (t : Tree Id α) : String :=
  "    " ++ nodeName t.label ++ " [label=" ++ quoteLabel (nodeLabel t) ++ "];\n"

/-- The two edges between a node and its operand at an index. -/
def edgeLines (parent : Id) (child : Id × Nat) : String :=
  "    " ++ nodeName parent ++ " -> " ++ nodeName child.1 ++ " [label=\"" ++ toString child.2 ++ "\"];\n"
    ++ "    " ++ nodeName child.1 ++ " -> " ++ nodeName parent ++ " [color=\"blue\"];\n"

/-- The edges below a node. -/
def edgesBelow (t : Tree Id α) : String :=
  String.join ((t.children.map Tree.label).zipIdx.map (edgeLines t.label))

/-- **The drawing of an expression.** -/
def dot (e : Expr α) : String :=
  "digraph expr \x7b\n" ++ String.join (e.tree.preorder.map nodeLine) ++ String.join (e.tree.preorder.map edgesBelow)
    ++ "\x7d\n"

end SignalFlow.Expr
