import SignalFlow.Graph.Basic

/-!
# Dense indices of nodes

Handles become sparse when nodes are destroyed. An `Index` numbers the live nodes of a graph without gaps, in the order
of their creation.
-/

namespace SignalFlow

/-- **A numbering of nodes** without gaps, in both directions. -/
structure Index where
  ids : Array NodeId
  /-- The number of each handle; none for a handle without a node. -/
  positions : Array (Option Nat)
deriving Repr

namespace Index

/-- The numbers of handles, in a table just large enough for all of them. -/
def positionsOf (ids : List NodeId) : Array (Option Nat) :=
  let size := (ids.map fun i => i.index + 1).foldl max 0
  ids.zipIdx.foldl (fun table p => table.setIfInBounds p.1.index (some p.2)) (Array.replicate size none)

/-- **The numbering of the live nodes of a graph.** -/
def ofGraph {α : Type} (g : Graph α) : Index := ⟨g.liveIds.toArray, positionsOf g.liveIds⟩

/-- The number of nodes. -/
def size (x : Index) : Nat := x.ids.size

/-- The number of a node. -/
def position (x : Index) (i : NodeId) : Except GraphError Nat :=
  match x.positions[i.index]?.join with
  | some n => .ok n
  | none => .error (.missing .nodeId)

/-- The node of a number. -/
def nodeAt (x : Index) (n : Nat) : Except AccessError NodeId :=
  match x.ids[n]? with
  | some i => .ok i
  | none => .error (.outOfBounds x.ids.size n)

end Index

end SignalFlow
