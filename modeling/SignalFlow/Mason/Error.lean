import SignalFlow.Graph.Error

/-!
# Errors of the solver
-/

namespace SignalFlow

/-- **Errors of the solver.** -/
inductive SolverError where
  | graph (e : GraphError)
  /-- The graph has more nodes than the configuration admits. -/
  | tooLarge (nodes max : Nat)
  /-- No node has the name. -/
  | unknownNode (name : String)
deriving DecidableEq, Repr

namespace SolverError

/-- The description of a node that is not found. -/
def nodeText (name : String) : String := "node '" ++ name ++ "'"

/-- The text shown for an error. -/
def message : SolverError → String
  | .graph e => "Graph error: " ++ e.message
  | .tooLarge nodes max =>
    "Graph has " ++ toString nodes ++ " nodes, more than the configured maximum of " ++ toString max
  | .unknownNode name => "Not found: " ++ nodeText name

/-- The kind of an error. -/
def fault (e : SolverError) : Fault :=
  match e with
  | .graph g => g.fault
  | .tooLarge _ _ => .invalidArgument e.message
  | .unknownNode name => .notFound (nodeText name)

end SolverError

end SignalFlow
