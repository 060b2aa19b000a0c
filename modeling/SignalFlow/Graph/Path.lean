import SignalFlow.Graph.Basic

/-!
# Paths

A path is a list of branches, each of which should begin where the one before ends. A path whose last branch ends where
the first begins is a loop. A path holds handles only; what it means depends on the graph.
-/

namespace SignalFlow

/-- **A sequence of branches.** -/
structure Path where
  branches : List BranchId
deriving DecidableEq, Repr

namespace Path

variable {α : Type}

/-- The branches of a path, or an error at the first that is not in the graph. -/
def resolve (g : Graph α) (p : Path) : Except GraphError (List (Graph.Branch α)) := p.branches.mapM g.branch

/-- The nodes on a list of branches: all sources, and the last destination unless it is the first source. -/
def nodesOf (bs : List (Graph.Branch α)) : List NodeId :=
  let sources := bs.map Graph.Branch.source
  match bs.getLast? with
  | some last => if sources.head? = some last.dest then sources else sources ++ [last.dest]
  | none => []

/-- **The nodes of a path** in order. A loop lists each node once, an open path also its last node. -/
def nodes (g : Graph α) (p : Path) : Except GraphError (List NodeId) := do
  return nodesOf (← p.resolve g)

/-- **Whether a path is a loop.** -/
def isLoop (g : Graph α) (p : Path) : Bool :=
  match p.branches.head?.bind g.branch?, p.branches.getLast?.bind g.branch? with
  | some first, some last => first.source = last.dest
  | _, _ => false

/-- Whether each branch begins where the one before ends. -/
def isConnectedFrom (g : Graph α) : List BranchId → Bool
  | i :: j :: rest =>
    match g.branch? i, g.branch? j with
    | some a, some b => a.dest = b.source && isConnectedFrom g (j :: rest)
    | _, _ => false
  | _ => true

/-- Whether each branch of a path begins where the one before ends. -/
def isConnected (g : Graph α) (p : Path) : Bool := isConnectedFrom g p.branches

/-- Whether two lists of nodes have a node in common. -/
def sharesNode (xs ys : List NodeId) : Bool := xs.any ys.contains

/-- **Whether two paths have a node in common.** -/
def touches (g : Graph α) (p q : Path) : Except GraphError Bool := do
  let ours ← p.nodes g
  let theirs ← q.nodes g
  return sharesNode ours theirs

variable [Scalar α]

/-- The product of expressions, left to right; that of none is 1. -/
def product : List (Expr α) → Expr α
  | [] => Expr.literal Scalar.one
  | e :: rest => rest.foldl (Expr.binary .mul) e

/-- **The gain of a path**: the product of its weights. -/
def gain (g : Graph α) (p : Path) : Except GraphError (Expr α) := do
  return product ((← p.resolve g).map Graph.Branch.weight)

end Path

end SignalFlow
