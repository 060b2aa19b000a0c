import SignalFlow.Expr.Error

/-!
# Errors of graphs

What can go wrong when a graph is built, changed, checked or searched, one constructor for every cause.
-/

namespace SignalFlow

/-- **What is not found where a registry should hold it.** -/
inductive Missing where
  | nodeId
  | branchId
  | nodeCount
  | branchCount
deriving DecidableEq, Repr

/-- The name of what is missing. -/
def Missing.text : Missing → String
  | .nodeId => "NodeId"
  | .branchId => "BranchId"
  | .nodeCount => "node count"
  | .branchCount => "branch count"

/-- **Errors of graphs.** -/
inductive GraphError where
  | nodeNotFound (node : NodeId)
  | branchNotFound (branch : BranchId)
  /-- Two nodes have the same name. -/
  | duplicateName (name : String)
  /-- A branch names a node that does not exist. -/
  | unknownName (name : String)
  /-- A branch and the lists of a node do not agree. -/
  | inconsistent (branch : BranchId) (node : NodeId)
  | missing (what : Missing)
  /-- The text of a weight is no expression. -/
  | weight (text : String) (e : ExprError)
deriving DecidableEq, Repr

namespace GraphError

/-- The text shown for an error. -/
def message : GraphError → String
  | .nodeNotFound i => "Node " ++ i.text ++ " is not part of this graph"
  | .branchNotFound i => "Branch " ++ i.text ++ " is not part of this graph"
  | .duplicateName name => "Node name '" ++ name ++ "' is used more than once"
  | .unknownName name => "No node named '" ++ name ++ "'"
  | .inconsistent branch node =>
    "Branch " ++ branch.text ++ " is not registered consistently with node " ++ node.text
  | .missing what => what.text ++ " not found in index map"
  | .weight text e => "Invalid weight '" ++ text ++ "': " ++ e.message

/-- The kind of an error. -/
def fault (e : GraphError) : Fault :=
  match e with
  | .nodeNotFound _ | .branchNotFound _ | .unknownName _ | .missing _ => .notFound e.message
  | .inconsistent _ _ => .invariant e.message
  | .duplicateName _ | .weight _ _ => .invalidArgument e.message

end GraphError

end SignalFlow
