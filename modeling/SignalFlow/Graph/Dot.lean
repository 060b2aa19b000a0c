import SignalFlow.Graph.Basic

/-!
# Drawing a graph

`Graph.dot` writes a line for every node with its name and a line for every branch with its weight.
-/

namespace SignalFlow.Graph

variable {α : Type}

/-- A label between quotes: a quote or a backslash in it is written with a backslash. -/
def quoteLabel (s : String) : String :=
  String.ofList ('"' :: s.toList.flatMap (fun c => if c == '"' || c == '\\' then ['\\', c] else [c]) ++ ['"'])

/-- The name of a node in the drawing. -/
def nodeName (i : NodeId) : String := "N" ++ i.text

/-- The line of a node. -/
def nodeLine (n : Node) : String := "  " ++ nodeName n.id ++ " [label=" ++ quoteLabel n.name ++ "];\n"

/-- The line of a branch. -/
def branchLine [Scalar α] (b : Branch α) : String :=
  "  " ++ nodeName b.source ++ " -> " ++ nodeName b.dest ++ " [label=" ++ quoteLabel b.weight.text ++ "];\n"

/-- **The drawing of a graph.** -/
def dot [Scalar α] (g : Graph α) : String :=
  "digraph sfg \x7b\n" ++ String.join (g.liveNodes.map nodeLine) ++ String.join (g.liveBranches.map branchLine)
    ++ "\x7d\n"

end SignalFlow.Graph
