import SignalFlow.Graph.Basic

/-!
# Consistency of a graph

A branch is registered in three places: in the graph, with its source and with its destination. `Graph.check` verifies
that the three agree, that every entity sits at the place of its handle, and that the counts are right.
-/

namespace SignalFlow.Graph

variable {α : Type}

/-- The first fault of a list of checks. -/
def firstFault : List (Option GraphError) → Except GraphError Unit
  | [] => .ok ()
  | some e :: _ => .error e
  | none :: rest => firstFault rest

/-- What is wrong when a condition does not hold. -/
def faultUnless (holds : Bool) (e : GraphError) : Option GraphError := if holds then none else some e

/-- Faults of the places and counts. -/
def placeFaults (g : Graph α) : List (Option GraphError) :=
  g.nodes.toList.zipIdx.map (fun p => faultUnless (p.1.all fun n => n.id.index == p.2) (.missing .nodeId))
    ++ g.branches.toList.zipIdx.map (fun p => faultUnless (p.1.all fun b => b.id.index == p.2) (.missing .branchId))
    ++ [faultUnless (g.liveNodes.length == g.nodeCount) (.missing .nodeCount),
      faultUnless (g.liveBranches.length == g.branchCount) (.missing .branchCount)]

/-- Faults of a branch: it must be listed once at each end. -/
def branchFaults (g : Graph α) (b : Branch α) : List (Option GraphError) :=
  match g.node? b.source, g.node? b.dest with
  | none, _ => [some (.nodeNotFound b.source)]
  | _, none => [some (.nodeNotFound b.dest)]
  | some s, some d =>
    [faultUnless (s.outgoing.count b.id == 1) (.inconsistent b.id b.source),
      faultUnless (d.incoming.count b.id == 1) (.inconsistent b.id b.dest)]

/-- Faults of a node: what it lists must be live branches with this node as their end. -/
def nodeFaults (g : Graph α) (n : Node) : List (Option GraphError) :=
  n.outgoing.map (fun i => faultUnless ((g.branch? i).any fun b => b.source = n.id) (.inconsistent i n.id))
    ++ n.incoming.map (fun i => faultUnless ((g.branch? i).any fun b => b.dest = n.id) (.inconsistent i n.id))

/-- **Checks the registries of a graph** against each other. -/
def check (g : Graph α) : Except GraphError Unit :=
  firstFault (g.placeFaults ++ g.liveBranches.flatMap g.branchFaults ++ g.liveNodes.flatMap g.nodeFaults)

end SignalFlow.Graph
