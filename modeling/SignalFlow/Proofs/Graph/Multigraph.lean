import SignalFlow.Proofs.Graph.Consistent
import SignalFlow.Proofs.Graph.InPlace

/-!
# Graphs as multigraphs

A `Multigraph` is a graph without registries: a list of nodes and a list of branches, oldest first. Its changes say what
a change means (`Multigraph.respond`): destroying a node takes away the node and the branches that touch it, and all
else stays as it is, in its order.

A graph that is changed in place, by any changes with any handles, keeps showing the multigraph that the same changes
lead to, and gives the same answers (`InPlace.run_exact`). The proof is one square per change (`respond_agrees`) and an
induction over the run.
-/

namespace SignalFlow

open SignalFlow.Graph (Answer Branch Change InPlace Node)

variable {α : Type}

/-! ## Multigraphs -/

/-- **A multigraph**: its nodes with their names and its branches, oldest first, and how many of both were ever made. -/
structure Multigraph (α : Type) where
  nodes : List (NodeId × String) := []
  branches : List (Branch α) := []
  nodesMade : Nat := 0
  branchesMade : Nat := 0

namespace Multigraph

/-- The name of a node, or an error. -/
def node (m : Multigraph α) (v : NodeId) : Except GraphError String :=
  match m.nodes.find? (·.1 = v) with
  | some n => .ok n.2
  | none => .error (.nodeNotFound v)

/-- The branch of a handle, or an error. -/
def branch (m : Multigraph α) (i : BranchId) : Except GraphError (Branch α) :=
  match m.branches.find? (·.id = i) with
  | some b => .ok b
  | none => .error (.branchNotFound i)

/-- **What a change means**: its answer and the multigraph after it, or why it is refused. -/
def respond [Scalar α] (m : Multigraph α) : Change α → Except GraphError (Answer α × Multigraph α)
  | .createNode name =>
    .ok (.newNode ⟨m.nodesMade⟩,
      { m with nodes := m.nodes ++ [(⟨m.nodesMade⟩, name)], nodesMade := m.nodesMade + 1 })
  | .destroyNode v => do
    let name ← m.node v
    return (.oldNode { id := v, name },
      { m with nodes := m.nodes.filter (·.1 ≠ v), branches := m.branches.filter fun b => b.source ≠ v ∧ b.dest ≠ v })
  | .connect source dest weight => do
    let _ ← m.node source
    let _ ← m.node dest
    let b : Branch α := { id := ⟨m.branchesMade⟩, source, dest, weight := weight.getD (Expr.literal Scalar.one) }
    return (.newBranch b.id, { m with branches := m.branches ++ [b], branchesMade := m.branchesMade + 1 })
  | .destroyBranch i => do
    let b ← m.branch i
    return (.oldBranch b, { m with branches := m.branches.filter (·.id ≠ i) })
  | .setWeight i weight => do
    let b ← m.branch i
    return (.oldWeight b.weight,
      { m with branches := m.branches.map fun c => if c.id = i then { c with weight } else c })
  | .rename v name => do
    let _ ← m.node v
    return (.done, { m with nodes := m.nodes.map fun n => if n.1 = v then (v, name) else n })

/-- **A run of changes**: all answers, and the multigraph at the end. A refused change changes nothing. -/
def run [Scalar α] : List (Change α) → Multigraph α → List (Except GraphError (Answer α)) × Multigraph α
  | [], m => ([], m)
  | c :: rest, m =>
    match m.respond c with
    | .ok (a, m) => (.ok a :: (run rest m).1, (run rest m).2)
    | .error e => (.error e :: (run rest m).1, (run rest m).2)

end Multigraph

/-- **A run of changes in place**: all answers, and the graph at the end. -/
def Graph.InPlace.run [Scalar α] : List (Change α) → Graph α → List (Except GraphError (Answer α)) × Graph α
  | [], g => ([], g)
  | c :: rest, g =>
    let (a, g) := (perform c).on g
    (a :: (run rest g).1, (run rest g).2)

/-! ## Graphs that show a multigraph -/

namespace Graph

/-- **A graph shows a multigraph**: its live entities are those of the multigraph, and its numbers are right. -/
structure Shows (g : Graph α) (m : Multigraph α) : Prop where
  nodes : g.liveNodes.map (fun n => (n.id, n.name)) = m.nodes
  branches : g.liveBranches = m.branches
  counts : g.counts = ⟨m.nodesMade, m.branchesMade, m.nodes.length, m.branches.length⟩

/-- The empty graph. -/
theorem Shows.empty : ({} : Graph α).Shows {} := ⟨rfl, rfl, rfl⟩

namespace Shows

variable {g g' : Graph α} {m : Multigraph α} (h : g.Shows m)
include h

theorem nodePlaces : g.nodes.size = m.nodesMade := congrArg Counts.nodePlaces h.counts

theorem branchPlaces : g.branches.size = m.branchesMade := congrArg Counts.branchPlaces h.counts

theorem nodeCount : g.nodeCount = m.nodes.length := congrArg Counts.nodes h.counts

theorem branchCount : g.branchCount = m.branches.length := congrArg Counts.branches h.counts

/-- Both find the same nodes. -/
theorem node_eq (hg : g.WellFormed) (v : NodeId) : m.node v = (g.node v).map Node.name := by
  have hfind : m.nodes.find? (·.1 = v) = (g.node? v).map fun n => (n.id, n.name) := by
    rw [← h.nodes, List.find?_map, ← hg.find?_liveNodes v]
    rfl
  unfold Multigraph.node node
  rw [hfind]
  cases g.node? v <;> rfl

/-- Both find the same branches. -/
theorem branch_eq (hg : g.WellFormed) (i : BranchId) : m.branch i = g.branch i := by
  have hfind : m.branches.find? (·.id = i) = g.branch? i := by
    rw [← h.branches, hg.find?_liveBranches i]
  unfold Multigraph.branch Graph.branch
  cases hb : g.branch? i with
  | none => simp only [hfind, hb]
  | some b => simp only [hfind, hb]

/-! ## One square per change -/

theorem createNode (name : String) :
    (g.createNode name).2.Shows
      { m with nodes := m.nodes ++ [(⟨m.nodesMade⟩, name)], nodesMade := m.nodesMade + 1 } := by
  have hplaces := h.nodePlaces
  have hcount := h.nodeCount
  have hbranches := h.branchPlaces
  have hbranchCount := h.branchCount
  refine ⟨?_, h.branches, ?_⟩
  · simp [← h.nodes, ← hplaces, Graph.createNode, liveNodes]
  · simp [Graph.createNode, Graph.counts, hplaces, hcount, hbranches, hbranchCount]

theorem connect [Scalar α] (hg : g.WellFormed) {source dest : NodeId} {s d : Node} (hs : g.node? source = some s)
    (hd : g.node? dest = some d) (weight : Option (Expr α)) :
    ∃ g', g.connect source dest weight = .ok (⟨m.branchesMade⟩, g') ∧ g'.Shows
      { m with
        branches := m.branches ++ [⟨⟨m.branchesMade⟩, source, dest, weight.getD (Expr.literal Scalar.one)⟩]
        branchesMade := m.branchesMade + 1 } := by
  obtain ⟨g', b, rfl, hok, -, hnode⟩ := hg.connect_ok hs hd weight
  obtain ⟨hcounts, hpush⟩ := counts_connect hok
  have hplaces := h.nodePlaces
  have hcount := h.nodeCount
  have hbranches := h.branchPlaces
  have hbranchCount := h.branchCount
  refine ⟨g', by rw [hok, hbranches], ?_, ?_, ?_⟩
  · rw [liveNodes_of_map _ (congrArg Counts.nodePlaces hcounts) hnode, List.map_map, ← h.nodes]
    rfl
  · simp [← h.branches, ← hbranches, liveBranches, hpush]
  · simp [hcounts, hplaces, hcount, hbranches, hbranchCount]

theorem destroyBranch (hg : g.WellFormed) {i : BranchId} {b : Branch α} (hb : g.branch? i = some b) :
    ∃ g', g.destroyBranch i = .ok (b, g') ∧ g.Detached [i] g' ∧
      g'.Shows { m with branches := m.branches.filter (·.id ≠ i) } := by
  obtain ⟨g', hok, hdetached⟩ := hg.destroyBranch_ok hb
  have hcounts := counts_destroyBranch hok
  have hid : b.id = i := hg.branch_id hb
  have hmem : b ∈ g.liveBranches := hg.mem_liveBranches.mpr (by rw [hid, hb])
  have hlength : (m.branches.filter (·.id ≠ i)).length = m.branches.length - 1 := by
    rw [← h.branches, ← hid]
    exact length_filter_ne hg.nodup_ids hmem
  have hbranches : g'.liveBranches = g.liveBranches.filter (·.id ≠ i) := by
    have hplace : ∀ j, g'.branch? j = (g.branch? j).bind (Option.guard (·.id ≠ i)) := by
      intro j
      rw [hdetached.branch?]
      cases hj : g.branch? j with
      | none => simp
      | some c => simp [Option.guard, hg.branch_id hj]
    rw [liveBranches_of_branch? _ (congrArg Counts.branchPlaces hcounts) hplace, List.filterMap_eq_filter]
  refine ⟨g', hok, hdetached, ?_, ?_, ?_⟩
  · rw [liveNodes_of_map _ (congrArg Counts.nodePlaces hcounts) hdetached.node?, List.map_map, ← h.nodes]
    rfl
  · rw [hbranches, h.branches]
  · rw [hcounts, hlength, h.nodePlaces, h.branchPlaces, h.nodeCount, h.branchCount]

/-- Branches that are destroyed one after the other are gone together. -/
theorem destroyBranches (hg : g.WellFormed) {is : List BranchId} (hnodup : is.Nodup)
    (hlive : ∀ i ∈ is, ∃ b, g.branch? i = some b) :
    ∃ g', g.destroyBranches is = .ok g' ∧ g.Detached is g' ∧
      g'.Shows { m with branches := m.branches.filter (·.id ∉ is) } := by
  induction is generalizing g m with
  | nil =>
    obtain ⟨g', hok, hdetached⟩ := hg.destroyBranches_ok hnodup hlive
    cases hok
    exact ⟨g, rfl, hdetached, by simpa using h⟩
  | cons i rest ih =>
    obtain ⟨hi, hrest⟩ := List.nodup_cons.mp hnodup
    obtain ⟨b, hb⟩ := hlive i List.mem_cons_self
    obtain ⟨g₁, hok₁, hdetached₁, hshows₁⟩ := h.destroyBranch hg hb
    have hlive₁ : ∀ j ∈ rest, ∃ c, g₁.branch? j = some c := by
      intro j hj
      have hji : j ∉ [i] := by
        rintro hmem
        cases List.mem_singleton.mp hmem
        exact hi hj
      rw [hdetached₁.branch?, if_neg hji]
      exact hlive j (List.mem_cons_of_mem _ hj)
    obtain ⟨g₂, hok₂, hdetached₂, hshows₂⟩ := ih hshows₁ (hg.of_detached hdetached₁) hrest hlive₁
    refine ⟨g₂, by rw [Graph.destroyBranches, hok₁]; exact hok₂, WellFormed.detached_cons hdetached₁ hdetached₂, ?_⟩
    rw [List.filter_filter] at hshows₂
    have hfilter : (fun b : Branch α => decide (b.id ∉ rest) && decide (b.id ≠ i)) =
        fun b => decide (b.id ∉ i :: rest) := by
      funext b
      simp [Bool.and_comm]
    rw [hfilter] at hshows₂
    exact hshows₂

/-- The branches that touch a node are those that it lists. -/
theorem filter_incident (hg : g.WellFormed) {v : NodeId} {n : Node} (hn : g.node? v = some n) :
    m.branches.filter (·.id ∉ n.incident) = m.branches.filter fun b => b.source ≠ v ∧ b.dest ≠ v := by
  rw [← h.branches]
  refine List.filter_congr fun b hb => ?_
  have hlive := hg.mem_liveBranches.mp hb
  have htouch : b.id ∈ n.incident ↔ b.source = v ∨ b.dest = v := by
    rw [hg.mem_incident_iff hn]
    refine ⟨fun ⟨c, hc, hcv⟩ => ?_, fun hbv => ⟨b, hlive, hbv⟩⟩
    cases hlive.symm.trans hc
    exact hcv
  simp [htouch, not_or]

theorem destroyNode (hg : g.WellFormed) {v : NodeId} {n : Node} (hn : g.node? v = some n) :
    ∃ g', g.destroyNode v = .ok ({ id := v, name := n.name }, g') ∧ g'.Shows
      { m with
        nodes := m.nodes.filter (·.1 ≠ v)
        branches := m.branches.filter fun b => b.source ≠ v ∧ b.dest ≠ v } := by
  have hlive : ∀ i ∈ n.incident, ∃ b, g.branch? i = some b := by
    intro i hi
    obtain ⟨b, hb, -⟩ := (hg.mem_incident_iff hn i).mp hi
    exact ⟨b, hb⟩
  obtain ⟨g₁, hok₁, hdetached, hshows⟩ := h.destroyBranches hg (hg.nodup_incident hn) hlive
  have hg₁ := hg.of_detached hdetached
  have hid : n.id = v := hg.node_id hn
  have hn₁ : g₁.node? v = some { id := v, name := n.name } := by
    rw [hdetached.node?, hn, Option.map_some, Node.detach_incident, hid]
  rw [h.filter_incident hg hn] at hshows
  let g₂ : Graph α := { g₁ with nodes := g₁.nodes.setIfInBounds v.index none, nodeCount := g₁.nodeCount - 1 }
  have hok : g.destroyNode v = .ok ({ id := v, name := n.name }, g₂) := by
    unfold Graph.destroyNode
    rw [node_eq_ok_iff.mpr hn]
    show (g.destroyBranches n.incident >>= fun _ => _) = _
    rw [hok₁]
    show (g₁.node v >>= fun _ => _) = _
    rw [node_eq_ok_iff.mpr hn₁]
    rfl
  have hnodes : g₂.liveNodes = g₁.liveNodes.filter (·.id ≠ v) := by
    have hplace : ∀ u, g₂.node? u = (g₁.node? u).bind (Option.guard (·.id ≠ v)) := by
      intro u
      simp only [Graph.node?, g₂, join_getElem?_setIfInBounds, Id.index_inj, index_lt_of_node? hn₁, and_true]
      show _ = (g₁.node? u).bind _
      cases hu : g₁.node? u with
      | none => simp [show g₁.nodes[u.index]?.join = none from hu]
      | some k => simp [show g₁.nodes[u.index]?.join = some k from hu, Option.guard, hg₁.node_id hu]
    rw [liveNodes_of_node? _ (by simp [g₂]) hplace, List.filterMap_eq_filter]
  have hnames : g₂.liveNodes.map (fun n => (n.id, n.name)) = m.nodes.filter (·.1 ≠ v) := by
    rw [hnodes, ← hshows.nodes, List.filter_map]
    rfl
  have hlength : (m.nodes.filter (·.1 ≠ v)).length = m.nodes.length - 1 := by
    have hmem : n ∈ g.liveNodes := hg.mem_liveNodes.mpr (by rw [hid, hn])
    have hnodup : (g.liveNodes.map Node.id).Nodup := nodup_of_oldest hg.oldest_liveIds
    rw [← h.nodes, List.filter_map, List.length_map, List.length_map, ← hid]
    exact length_filter_ne hnodup hmem
  refine ⟨g₂, hok, hnames, hshows.branches, ?_⟩
  have hcounts : g₂.counts = ⟨g₁.nodes.size, g₁.branches.size, g₁.nodeCount - 1, g₁.branchCount⟩ := by
    simp [Graph.counts, g₂]
  rw [hcounts, hlength, hshows.nodePlaces, hshows.branchPlaces, hshows.nodeCount, hshows.branchCount]

theorem setWeight (hg : g.WellFormed) {i : BranchId} {b : Branch α} (hb : g.branch? i = some b) (weight : Expr α) :
    ∃ g', g.setWeight i weight = .ok (b.weight, g') ∧ g'.Shows
      { m with branches := m.branches.map fun c => if c.id = i then { c with weight } else c } := by
  obtain ⟨g', hok, -, hbranch⟩ := setWeight_ok hb weight
  have hresult : g' = { g with branches := g.branches.setIfInBounds i.index (some { b with weight }) } := by
    rw [Graph.setWeight, branch_eq_ok_iff.mpr hb] at hok
    cases hok
    rfl
  have hlists : g'.liveBranches = g.liveBranches.map fun c => if c.id = i then { c with weight } else c := by
    have hplace : ∀ j, g'.branch? j =
        (g.branch? j).bind (some ∘ fun c => if c.id = i then { c with weight } else c) := by
      intro j
      rw [hbranch]
      by_cases hj : j = i
      · subst hj
        simp [hb, hg.branch_id hb]
      · cases hc : g.branch? j with
        | none => simp [hj]
        | some c => simp [hj, hg.branch_id hc]
    rw [liveBranches_of_branch? _ (by simp [hresult]) hplace, List.filterMap_eq_map]
  refine ⟨g', hok, ?_, ?_, ?_⟩
  · rw [← h.nodes, hresult]
    rfl
  · rw [hlists, h.branches]
  · have hcounts : g'.counts = g.counts := by simp [hresult, Graph.counts]
    rw [hcounts, h.counts, List.length_map]

theorem rename (hg : g.WellFormed) {v : NodeId} {n : Node} (hn : g.node? v = some n) (name : String) :
    ∃ g', g.rename v name = .ok g' ∧ g'.Shows
      { m with nodes := m.nodes.map fun n => if n.1 = v then (v, name) else n } := by
  have hid : n.id = v := hg.node_id hn
  have hplace : ∀ u, (g.setNode { n with name }).node? u =
      (g.node? u).map fun k => if k.id = v then { k with name } else k := by
    intro u
    rw [node?_setNode]
    by_cases hu : u = v
    · subst hu
      simp [hid, index_lt_of_node? hn, hn]
    · cases hk : g.node? u with
      | none => simp [hid, hu]
      | some k => simp [hid, hu, hg.node_id hk]
  refine ⟨g.setNode { n with name }, ?_, ?_, h.branches, ?_⟩
  · rw [Graph.rename, node_eq_ok_iff.mpr hn]
    rfl
  · rw [liveNodes_of_map _ (by simp [setNode]) hplace, ← h.nodes, List.map_map, List.map_map]
    refine List.map_congr_left fun k _ => ?_
    by_cases hk : k.id = v <;> simp [hk]
  · rw [counts_setNode, h.counts, List.length_map]

end Shows

/-- **Two answers agree**: both go through with the same answer and the graph shows the multigraph, or both are refused
for the same reason. -/
inductive Agree : Except GraphError (Answer α × Graph α) → Except GraphError (Answer α × Multigraph α) → Prop where
  | ok {a : Answer α} {g : Graph α} {m : Multigraph α} (h : g.Shows m) : Agree (.ok (a, g)) (.ok (a, m))
  | error (e : GraphError) : Agree (.error e) (.error e)

/-- **A change of a graph agrees with what it means** for the multigraph that the graph shows. -/
theorem Shows.respond_agrees [Scalar α] {g : Graph α} {m : Multigraph α} (h : g.Shows m) (hg : g.WellFormed)
    (c : Change α) : Agree (g.respond c) (m.respond c) := by
  -- A handle that names nothing is refused by both.
  have hnone : ∀ {v}, g.node? v = none → g.node v = .error (.nodeNotFound v) := fun hv => by rw [node, hv]
  have hlookup := h.node_eq hg
  cases c with
  | createNode name =>
    have hid : (g.createNode name).1 = ⟨m.nodesMade⟩ := congrArg Id.mk h.nodePlaces
    rw [respond, hid]
    exact .ok (h.createNode name)
  | destroyNode v =>
    simp only [respond, Multigraph.respond, hlookup]
    cases hv : g.node? v with
    | none =>
      rw [Graph.destroyNode, hnone hv]
      exact .error _
    | some n =>
      obtain ⟨g', hok, hshows⟩ := h.destroyNode hg hv
      rw [hok, node_eq_ok_iff.mpr hv]
      exact .ok hshows
  | connect source dest weight =>
    simp only [respond, Multigraph.respond, hlookup]
    cases hs : g.node? source with
    | none =>
      rw [Graph.connect, hnone hs]
      exact .error _
    | some s =>
      cases hd : g.node? dest with
      | none =>
        rw [Graph.connect, node_eq_ok_iff.mpr hs, hnone hd]
        exact .error _
      | some d =>
        obtain ⟨g', hok, hshows⟩ := h.connect hg hs hd weight
        rw [hok, node_eq_ok_iff.mpr hs, node_eq_ok_iff.mpr hd]
        exact .ok hshows
  | destroyBranch i =>
    simp only [respond, Multigraph.respond, h.branch_eq hg]
    cases hi : g.branch? i with
    | none =>
      rw [Graph.destroyBranch, Graph.branch, hi]
      exact .error _
    | some b =>
      obtain ⟨g', hok, -, hshows⟩ := h.destroyBranch hg hi
      rw [hok, branch_eq_ok_iff.mpr hi]
      exact .ok hshows
  | setWeight i weight =>
    simp only [respond, Multigraph.respond, h.branch_eq hg]
    cases hi : g.branch? i with
    | none =>
      rw [Graph.setWeight, Graph.branch, hi]
      exact .error _
    | some b =>
      obtain ⟨g', hok, hshows⟩ := h.setWeight hg hi weight
      rw [hok, branch_eq_ok_iff.mpr hi]
      exact .ok hshows
  | rename v name =>
    simp only [respond, Multigraph.respond, hlookup]
    cases hv : g.node? v with
    | none =>
      rw [Graph.rename, hnone hv]
      exact .error _
    | some n =>
      obtain ⟨g', hok, hshows⟩ := h.rename hg hv name
      rw [hok, node_eq_ok_iff.mpr hv]
      exact .ok hshows

end Graph

/-! ## New handles -/

/-- The handles that a run has given out, according to what an answer gives out. -/
def handles (given : Answer α → Option Id) (answers : List (Except GraphError (Answer α))) : List Id :=
  answers.filterMap (·.toOption.bind given)

/-- **Handles are given out in turn**: no handle is given out, or the next one is. -/
def InTurn (given : Option Id) (made made' : Nat) : Prop :=
  (given = none ∧ made' = made) ∨ (given = some ⟨made⟩ ∧ made' = made + 1)

namespace Multigraph

variable [Scalar α]

theorem inTurn_of_respond {m m' : Multigraph α} {c : Change α} {a : Answer α} (h : m.respond c = .ok (a, m')) :
    InTurn a.newNode? m.nodesMade m'.nodesMade ∧ InTurn a.newBranch? m.branchesMade m'.branchesMade := by
  cases c with
  | createNode name =>
    cases h
    exact ⟨.inr ⟨rfl, rfl⟩, .inl ⟨rfl, rfl⟩⟩
  | connect source dest weight =>
    simp only [respond, bind, Except.bind] at h
    split at h
    · cases h
    · split at h
      · cases h
      · cases h
        exact ⟨.inl ⟨rfl, rfl⟩, .inr ⟨rfl, rfl⟩⟩
  | destroyNode _ | destroyBranch _ | setWeight _ _ | rename _ _ =>
    simp only [respond, bind, Except.bind] at h
    split at h
    · cases h
    · cases h
      exact ⟨.inl ⟨rfl, rfl⟩, .inl ⟨rfl, rfl⟩⟩

/-- **A run gives out new handles only**: each is higher than those before it and those made before the run. -/
theorem oldest_handles {given : Answer α → Option Id} {made : Multigraph α → Nat}
    (hturn : ∀ {m m' c a}, m.respond c = .ok (a, m') → InTurn (given a) (made m) (made m')) (cs : List (Change α))
    (m : Multigraph α) :
    Oldest (handles given (run cs m).1) ∧ ∀ i ∈ handles given (run cs m).1, made m ≤ i.index := by
  induction cs generalizing m with
  | nil => exact ⟨.nil, by simp [run, handles]⟩
  | cons c rest ih =>
    rw [run]
    cases hc : m.respond c with
    | error e => exact ih m
    | ok r =>
      obtain ⟨a, m'⟩ := r
      obtain ⟨holdest, hle⟩ := ih m'
      rcases hturn hc with ⟨hnone, hmade⟩ | ⟨hsome, hmade⟩
      · have hhandles : handles given (.ok a :: (run rest m').1) = handles given (run rest m').1 := by
          simp [handles, Except.toOption, hnone]
        rw [← hmade]
        simp only [hhandles]
        exact ⟨holdest, hle⟩
      · have hhandles : handles given (.ok a :: (run rest m').1) = ⟨made m⟩ :: handles given (run rest m').1 := by
          simp [handles, Except.toOption, hsome]
        simp only [hhandles]
        refine ⟨List.pairwise_cons.mpr ⟨fun i hi => ?_, holdest⟩, fun i hi => ?_⟩
        · have := hle i hi
          show made m < i.index
          omega
        · rcases List.mem_cons.mp hi with rfl | hi
          · exact Nat.le_refl _
          · have := hle i hi
            omega

end Multigraph

/-! ## Runs -/

namespace Graph.InPlace

variable [Scalar α]

/-- A run in place leads to the graph after its changes. -/
theorem run_eq_after {g : Graph α} (hg : g.WellFormed) (cs : List (Change α)) : (run cs g).2 = g.after cs := by
  induction cs generalizing g with
  | nil => rfl
  | cons c rest ih =>
    have hstep : ((perform c).on g).2 = (g.perform c).toOption.getD g := by
      rw [on_perform hg, ← map_snd_respond]
      cases g.respond c <;> rfl
    have hwf := hg.after [c]
    rw [Graph.after, Graph.after] at hwf
    rw [run, Graph.after, ← hstep]
    exact ih (hstep ▸ hwf)

/-- A run in place agrees with the run of the multigraph. -/
theorem run_agrees {g : Graph α} {m : Multigraph α} (hg : g.WellFormed) (h : g.Shows m) (cs : List (Change α)) :
    (run cs g).1 = (Multigraph.run cs m).1 ∧ (run cs g).2.Shows (Multigraph.run cs m).2 := by
  induction cs generalizing g m with
  | nil => exact ⟨rfl, h⟩
  | cons c rest ih =>
    have hagree := h.respond_agrees hg c
    have hwf : ∀ {g'}, g.perform c = .ok g' → g'.WellFormed := fun hc => hg.perform hc
    rw [run, on_perform hg, Multigraph.run]
    rw [← map_snd_respond] at hwf
    cases hr : g.respond c with
    | error e =>
      rw [hr] at hagree
      cases hr' : m.respond c with
      | ok r => rw [hr'] at hagree; cases hagree
      | error e' =>
        rw [hr'] at hagree
        cases hagree
        obtain ⟨hanswers, hshows⟩ := ih hg h
        exact ⟨congrArg _ hanswers, hshows⟩
    | ok r =>
      obtain ⟨a, g'⟩ := r
      rw [hr] at hagree hwf
      cases hr' : m.respond c with
      | error e' => rw [hr'] at hagree; cases hagree
      | ok r' =>
        rw [hr'] at hagree
        cases hagree with
        | ok hshows =>
          obtain ⟨hanswers, hshows⟩ := ih (hwf rfl) hshows
          exact ⟨congrArg _ hanswers, hshows⟩

/-- **A graph changed in place is a multigraph**: after any changes of the empty graph, with any handles, it shows the
multigraph that the same changes lead to, has given the same answers, lists at every node the live branches that leave
and enter it in the order of their creation, and counts what is live; it passes its check, no handle has been given out
twice, and a change that is refused leaves it as it is. -/
theorem run_exact (cs : List (Change α)) :
    ∃ answers g m, run cs {} = (answers, g) ∧ Multigraph.run cs {} = (answers, m) ∧
      g.liveNodes.map (fun n => (n.id, n.name)) = m.nodes ∧ g.liveBranches = m.branches ∧
      (∀ v, g.outgoing v = (m.branches.filter (·.source = v)).map Branch.id) ∧
      (∀ v, g.incoming v = (m.branches.filter (·.dest = v)).map Branch.id) ∧
      g.nodeCount = m.nodes.length ∧ g.branchCount = m.branches.length ∧ g.check = .ok () ∧
      (handles Answer.newNode? answers).Nodup ∧ (handles Answer.newBranch? answers).Nodup ∧
      ∀ c e, ((perform c).on g).1 = .error e → ((perform c).on g).2 = g := by
  obtain ⟨hanswers, hshows⟩ := run_agrees WellFormed.empty Shows.empty cs
  have hg : (run cs ({} : Graph α)).2.WellFormed := by
    rw [run_eq_after WellFormed.empty]
    exact WellFormed.empty.after cs
  have hnodes := (Multigraph.oldest_handles (fun h => (Multigraph.inTurn_of_respond h).1) cs {}).1
  have hbranches := (Multigraph.oldest_handles (fun h => (Multigraph.inTurn_of_respond h).2) cs {}).1
  rw [← hanswers] at hnodes hbranches
  refine ⟨_, _, _, rfl, Prod.ext hanswers.symm rfl, hshows.nodes, hshows.branches, fun v => ?_, fun v => ?_,
    hshows.nodeCount, hshows.branchCount, ?_, nodup_of_oldest hnodes, nodup_of_oldest hbranches, fun c e he => ?_⟩
  · rw [hg.outgoing_eq, leaving, hshows.branches]
  · rw [hg.incoming_eq, hshows.branches]
  · refine check_eq_ok hg ?_ ?_
    · rw [hshows.nodeCount, ← hshows.nodes, List.length_map]
    · rw [hshows.branchCount, hshows.branches]
  · rw [on_perform hg] at he ⊢
    cases hr : Graph.respond _ c with
    | error e' => rfl
    | ok r => rw [hr] at he; cases he

end Graph.InPlace

end SignalFlow
