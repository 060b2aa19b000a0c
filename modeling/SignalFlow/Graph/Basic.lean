import SignalFlow.Graph.Error
import SignalFlow.Expr.Basic

/-!
# Signal-flow graphs

A graph has named nodes and directed branches weighted with expressions; branches may be parallel and may lead back to
their own node. Nodes and branches keep their handles until they are destroyed, and a handle is never given out twice.
Every node lists its outgoing and its incoming branches, oldest first.
-/

namespace SignalFlow

/-- **A node** with the branches that leave and enter it, oldest first. -/
structure Graph.Node where
  id : NodeId
  name : String
  outgoing : List BranchId := []
  incoming : List BranchId := []
deriving DecidableEq, Repr

/-- **A branch** from a source to a destination. -/
structure Graph.Branch (α : Type) where
  id : BranchId
  source : NodeId
  dest : NodeId
  weight : Expr α

/-- Whether a branch leads back to its own node. -/
def Graph.Branch.isSelfLoop {α : Type} (b : Graph.Branch α) : Bool := b.source = b.dest

/-- **A signal-flow graph.** Nodes and branches are registered at the index of their handle; the place of a destroyed
one stays empty. -/
structure Graph (α : Type) where
  nodes : Array (Option Graph.Node) := #[]
  branches : Array (Option (Graph.Branch α)) := #[]
  nodeCount : Nat := 0
  branchCount : Nat := 0

namespace Graph

variable {α : Type}

/-! ## Views -/

/-- The live node of a handle. -/
def node? (g : Graph α) (i : NodeId) : Option Node := g.nodes[i.index]?.join

/-- The live branch of a handle. -/
def branch? (g : Graph α) (i : BranchId) : Option (Branch α) := g.branches[i.index]?.join

/-- The live nodes in the order of their creation. -/
def liveNodes (g : Graph α) : List Node := g.nodes.toList.filterMap id

/-- The handles of the live nodes in the order of their creation. -/
def liveIds (g : Graph α) : List NodeId := g.liveNodes.map Node.id

/-- The live branches in the order of their creation. -/
def liveBranches (g : Graph α) : List (Branch α) := g.branches.toList.filterMap id

/-- The first node, in the order of creation, that has a name. -/
def find? (g : Graph α) (name : String) : Option NodeId := (g.liveNodes.find? (·.name = name)).map Node.id

/-- The branches that leave a node; none leave a node that is not there. -/
def outgoing (g : Graph α) (i : NodeId) : List BranchId := ((g.node? i).map Node.outgoing).getD []

/-- The branches that enter a node; none enter a node that is not there. -/
def incoming (g : Graph α) (i : NodeId) : List BranchId := ((g.node? i).map Node.incoming).getD []

/-- The live node of a handle, or an error. -/
def node (g : Graph α) (i : NodeId) : Except GraphError Node :=
  match g.node? i with
  | some n => .ok n
  | none => .error (.nodeNotFound i)

/-- The live branch of a handle, or an error. -/
def branch (g : Graph α) (i : BranchId) : Except GraphError (Branch α) :=
  match g.branch? i with
  | some b => .ok b
  | none => .error (.branchNotFound i)

/-! ## Changes -/

/-- Puts a node at the place of its handle. -/
def setNode (g : Graph α) (n : Node) : Graph α := { g with nodes := g.nodes.setIfInBounds n.id.index (some n) }

/-- **Adds a node** without branches. -/
def createNode (g : Graph α) (name : String) : NodeId × Graph α :=
  let id : NodeId := ⟨g.nodes.size⟩
  (id, { g with nodes := g.nodes.push (some { id, name }), nodeCount := g.nodeCount + 1 })

/-- **Adds a branch** between two nodes; without a weight it has the weight 1. -/
def connect [Scalar α] (g : Graph α) (source dest : NodeId) (weight : Option (Expr α)) :
    Except GraphError (BranchId × Graph α) := do
  let s ← g.node source
  let _ ← g.node dest
  let id : BranchId := ⟨g.branches.size⟩
  let branch : Branch α := { id, source, dest, weight := weight.getD (Expr.literal Scalar.one) }
  let g := { g with branches := g.branches.push (some branch), branchCount := g.branchCount + 1 }
  let g := g.setNode { s with outgoing := s.outgoing ++ [id] }
  let d ← g.node dest
  return (id, g.setNode { d with incoming := d.incoming ++ [id] })

/-- **Removes a branch** from the graph and from the lists of its ends; answers the branch. -/
def destroyBranch (g : Graph α) (i : BranchId) : Except GraphError (Branch α × Graph α) := do
  let b ← g.branch i
  let g := { g with branches := g.branches.setIfInBounds i.index none, branchCount := g.branchCount - 1 }
  let s ← g.node b.source
  let g := g.setNode { s with outgoing := s.outgoing.filter (· ≠ i) }
  let d ← g.node b.dest
  return (b, g.setNode { d with incoming := d.incoming.filter (· ≠ i) })

/-- Removes several branches. -/
def destroyBranches (g : Graph α) : List BranchId → Except GraphError (Graph α)
  | [] => .ok g
  | i :: rest => do
    let (_, g) ← g.destroyBranch i
    g.destroyBranches rest

/-- The branches that leave or enter a node, a branch back to the node once. -/
def Node.incident (n : Node) : List BranchId := n.outgoing ++ n.incoming.filter (· ∉ n.outgoing)

/-- **Removes a node** and every branch that touches it; answers the node, by then without branches. -/
def destroyNode (g : Graph α) (i : NodeId) : Except GraphError (Node × Graph α) := do
  let n ← g.node i
  let g ← g.destroyBranches n.incident
  let n ← g.node i
  return (n, { g with nodes := g.nodes.setIfInBounds i.index none, nodeCount := g.nodeCount - 1 })

/-- Gives a branch another weight; answers the old one. -/
def setWeight (g : Graph α) (i : BranchId) (weight : Expr α) : Except GraphError (Expr α × Graph α) := do
  let b ← g.branch i
  return (b.weight, { g with branches := g.branches.setIfInBounds i.index (some { b with weight }) })

/-- Gives a node another name. -/
def rename (g : Graph α) (i : NodeId) (name : String) : Except GraphError (Graph α) := do
  let n ← g.node i
  return g.setNode { n with name }

end Graph

end SignalFlow
