import SignalFlow.Proofs.Graph.WellFormed

/-!
# Removing

Destroying a branch takes it out of the registry and of the lists of its ends; on a well-formed graph no other node
lists it, so it is gone from all lists (`Detached`). Destroying a node destroys the branches incident to it first. Both
succeed on a well-formed graph (`destroyBranch_ok`, `destroyNode_ok`) and keep it well-formed (`of_detached`,
`of_destroyed`).
-/

namespace SignalFlow.Graph

variable {α : Type}

/-! ## Removed branches -/

/-- A node without some branches. -/
def Node.detach (gone : List BranchId) (n : Node) : Node :=
  { n with outgoing := n.outgoing.filter (· ∉ gone), incoming := n.incoming.filter (· ∉ gone) }

/-- A graph without some branches, as the look-ups show it. -/
structure Detached (g : Graph α) (gone : List BranchId) (g' : Graph α) : Prop where
  branch? : ∀ i, g'.branch? i = if i ∈ gone then none else g.branch? i
  node? : ∀ v, g'.node? v = (g.node? v).map (Node.detach gone)

namespace WellFormed

variable {g : Graph α}

theorem of_detached (hg : g.WellFormed) {g' : Graph α} {gone : List BranchId} (h : g.Detached gone g') :
    g'.WellFormed := by
  have hold : ∀ {i b}, g'.branch? i = some b → g.branch? i = some b := by
    intro i b hb
    rw [h.branch?] at hb
    split at hb
    · cases hb
    · exact hb
  constructor
  case node_id =>
    intro v n hn
    rw [h.node?] at hn
    obtain ⟨m, hm, rfl⟩ := Option.map_eq_some_iff.mp hn
    exact (hg.node_id hm :)
  case branch_id => exact fun hb => hg.branch_id (hold hb)
  case source_live => exact fun hb => exists_node?_of_map h.node? (hg.source_live (hold hb))
  case dest_live => exact fun hb => exists_node?_of_map h.node? (hg.dest_live (hold hb))
  case outgoing =>
    intro v n hn
    rw [h.node?] at hn
    obtain ⟨m, hm, rfl⟩ := Option.map_eq_some_iff.mp hn
    exact (hg.outgoing hm).filter h.branch?
  case incoming =>
    intro v n hn
    rw [h.node?] at hn
    obtain ⟨m, hm, rfl⟩ := Option.map_eq_some_iff.mp hn
    exact (hg.incoming hm).filter h.branch?

/-- Detaching a branch changes the lists of its ends only. -/
theorem detach_singleton (hg : g.WellFormed) {i : BranchId} {b : Branch α} (hb : g.branch? i = some b) {v : NodeId}
    {n : Node} (hn : g.node? v = some n) :
    n.detach [i] = n.atEnds b.source b.dest (List.filter (· ≠ i)) (List.filter (· ≠ i)) := by
  have hkeep : ∀ {ids : List BranchId} {P : Branch α → Prop}, g.Lists ids P → ¬P b → ids.filter (· ≠ i) = ids := by
    intro ids P h hP
    refine List.filter_eq_self.mpr fun j hj => decide_eq_true ?_
    rintro rfl
    obtain ⟨c, hc, hPc⟩ := (h.mem_iff j).mp hj
    cases hb.symm.trans hc
    exact hP hPc
  have hid : n.id = v := hg.node_id hn
  simp only [Node.detach, Node.atEnds, List.mem_singleton, hid]
  congr 1
  · split
    · rfl
    · next h => exact hkeep (hg.outgoing hn) h
  · split
    · rfl
    · next h => exact hkeep (hg.incoming hn) h

/-- **Destroying a live branch** removes it from the graph and from the lists of all nodes. -/
theorem destroyBranch_ok (hg : g.WellFormed) {i : BranchId} {b : Branch α} (hb : g.branch? i = some b) :
    ∃ g', g.destroyBranch i = .ok (b, g') ∧ g.Detached [i] g' := by
  obtain ⟨s, hs⟩ := hg.source_live hb
  obtain ⟨d, hd⟩ := hg.dest_live hb
  let g₁ : Graph α := { g with branches := g.branches.setIfInBounds i.index none, branchCount := g.branchCount - 1 }
  obtain ⟨d', hd', hnode⟩ := setEnds (g := g₁) hg.node_id hs hd (List.filter (· ≠ i)) (List.filter (· ≠ i))
  refine ⟨(g₁.setNode { s with outgoing := s.outgoing.filter (· ≠ i) }).setNode
    { d' with incoming := d'.incoming.filter (· ≠ i) }, ?_, fun j => ?_, fun v => ?_⟩
  rotate_left
  · rw [branch?_setNode, branch?_setNode]
    simp only [Graph.branch?, g₁, join_getElem?_setIfInBounds, Id.index_inj, index_lt_of_branch? hb, and_true,
      List.mem_singleton]
  · rw [hnode, show g₁.node? v = g.node? v from rfl]
    cases hn : g.node? v with
    | none => rfl
    | some n => rw [Option.map_some, Option.map_some, hg.detach_singleton hb hn]
  · have h₁ : g.branch i = .ok b := branch_eq_ok_iff.mpr hb
    have h₂ : g₁.node b.source = .ok s := node_eq_ok_iff.mpr hs
    unfold destroyBranch
    rw [h₁]
    show (g₁.node b.source >>= fun _ => _) = _
    rw [h₂]
    show ((g₁.setNode { s with outgoing := s.outgoing.filter (· ≠ i) }).node b.dest >>= fun _ => _) = _
    rw [hd']
    rfl

theorem detached_cons {g₁ g₂ : Graph α} {i : BranchId} {rest : List BranchId} (h₁ : g.Detached [i] g₁)
    (h₂ : g₁.Detached rest g₂) : g.Detached (i :: rest) g₂ := by
  constructor
  · intro j
    rw [h₂.branch?, h₁.branch?]
    by_cases hj : j = i <;> simp [hj]
  · intro v
    rw [h₂.node?, h₁.node?, Option.map_map]
    congr 1
    funext n
    simp [Node.detach, List.filter_filter, Bool.and_comm]

/-- **Destroying live branches**, each once, removes them all. -/
theorem destroyBranches_ok (hg : g.WellFormed) {is : List BranchId} (hnodup : is.Nodup)
    (hlive : ∀ i ∈ is, ∃ b, g.branch? i = some b) : ∃ g', g.destroyBranches is = .ok g' ∧ g.Detached is g' := by
  induction is generalizing g with
  | nil =>
    refine ⟨g, rfl, ⟨fun _ => by simp, fun v => ?_⟩⟩
    cases g.node? v <;> simp [Node.detach]
  | cons i rest ih =>
    obtain ⟨hi, hrest⟩ := List.nodup_cons.mp hnodup
    obtain ⟨b, hb⟩ := hlive i List.mem_cons_self
    obtain ⟨g₁, hok₁, h₁⟩ := hg.destroyBranch_ok hb
    have hlive₁ : ∀ j ∈ rest, ∃ c, g₁.branch? j = some c := by
      intro j hj
      have hji : j ∉ [i] := by
        rintro h
        cases List.mem_singleton.mp h
        exact hi hj
      rw [h₁.branch?, if_neg hji]
      exact hlive j (List.mem_cons_of_mem _ hj)
    obtain ⟨g₂, hok₂, h₂⟩ := ih (hg.of_detached h₁) hrest hlive₁
    exact ⟨g₂, by rw [destroyBranches, hok₁]; exact hok₂, detached_cons h₁ h₂⟩

end WellFormed

/-! ## Removed nodes -/

theorem Node.mem_incident {n : Node} {i : BranchId} : i ∈ n.incident ↔ i ∈ n.outgoing ∨ i ∈ n.incoming := by
  by_cases h : i ∈ n.outgoing <;> simp [Node.incident, h]

/-- A node is left without branches when those that touch it are gone. -/
theorem Node.detach_incident (n : Node) : n.detach n.incident = { n with outgoing := [], incoming := [] } := by
  have hall : ∀ ids : List BranchId, (∀ i ∈ ids, i ∈ n.incident) → ids.filter (· ∉ n.incident) = [] := by
    intro ids h
    exact List.filter_eq_nil_iff.mpr fun i hi => by simpa using h i hi
  rw [Node.detach, hall _ fun i hi => mem_incident.mpr (.inl hi), hall _ fun i hi => mem_incident.mpr (.inr hi)]

namespace WellFormed

variable {g : Graph α}

theorem mem_incident_iff (hg : g.WellFormed) {v : NodeId} {n : Node} (hn : g.node? v = some n) (i : BranchId) :
    i ∈ n.incident ↔ ∃ b, g.branch? i = some b ∧ (b.source = v ∨ b.dest = v) := by
  rw [Node.mem_incident, (hg.outgoing hn).mem_iff, (hg.incoming hn).mem_iff, ← exists_or]
  simp only [and_or_left]

theorem nodup_incident (hg : g.WellFormed) {v : NodeId} {n : Node} (hn : g.node? v = some n) : n.incident.Nodup := by
  refine List.nodup_append.mpr ⟨nodup_of_oldest (hg.outgoing hn).oldest,
    (nodup_of_oldest (hg.incoming hn).oldest).filter _, ?_⟩
  rintro i hi j hj rfl
  exact of_decide_eq_true (List.mem_filter.mp hj).2 hi

/-- **Destroying a live node** removes it with the branches that touch it, and answers it without branches. -/
theorem destroyNode_ok (hg : g.WellFormed) {v : NodeId} {n : Node} (hn : g.node? v = some n) :
    ∃ g', g.destroyNode v = .ok ({ n with outgoing := [], incoming := [] }, g') ∧
      (∀ i, g'.branch? i = if i ∈ n.incident then none else g.branch? i) ∧
      ∀ u, g'.node? u = if u = v then none else (g.node? u).map (Node.detach n.incident) := by
  obtain ⟨g₁, hok, h₁⟩ := hg.destroyBranches_ok (hg.nodup_incident hn) fun i hi => by
    obtain ⟨b, hb, -⟩ := (hg.mem_incident_iff hn i).mp hi
    exact ⟨b, hb⟩
  have hn₁ : g₁.node? v = some { n with outgoing := [], incoming := [] } := by
    rw [h₁.node?, hn, Option.map_some, Node.detach_incident]
  refine ⟨{ g₁ with nodes := g₁.nodes.setIfInBounds v.index none, nodeCount := g₁.nodeCount - 1 }, ?_, h₁.branch?,
    fun u => ?_⟩
  · unfold destroyNode
    rw [node_eq_ok_iff.mpr hn]
    show (g.destroyBranches n.incident >>= fun _ => _) = _
    rw [hok]
    show (g₁.node v >>= fun _ => _) = _
    rw [node_eq_ok_iff.mpr hn₁]
    rfl
  · rw [← h₁.node?]
    simp only [Graph.node?, join_getElem?_setIfInBounds, Id.index_inj, index_lt_of_node? hn₁, and_true]

/-- A node may be removed with the branches that touch it. -/
theorem of_destroyed (hg : g.WellFormed) {v : NodeId} {n : Node} (hn : g.node? v = some n) {g' : Graph α}
    (hbranch : ∀ i, g'.branch? i = if i ∈ n.incident then none else g.branch? i)
    (hnode : ∀ u, g'.node? u = if u = v then none else (g.node? u).map (Node.detach n.incident)) : g'.WellFormed := by
  have hbold : ∀ {i b}, g'.branch? i = some b → g.branch? i = some b ∧ i ∉ n.incident := by
    intro i b h
    rw [hbranch] at h
    split at h
    · cases h
    · next hi => exact ⟨h, hi⟩
  have hnold : ∀ {u m}, g'.node? u = some m → ∃ m₀, g.node? u = some m₀ ∧ m = m₀.detach n.incident := by
    intro u m h
    rw [hnode] at h
    split at h
    · cases h
    · obtain ⟨m₀, hm₀, hm⟩ := Option.map_eq_some_iff.mp h
      exact ⟨m₀, hm₀, hm.symm⟩
  -- An end of a branch that is left is another node.
  have hlive : ∀ {u}, u ≠ v → (∃ m, g.node? u = some m) → ∃ m, g'.node? u = some m := by
    rintro u hu ⟨m, hm⟩
    exact ⟨_, by rw [hnode, if_neg hu, hm]; rfl⟩
  constructor
  case node_id =>
    intro u m h
    obtain ⟨m₀, hm₀, rfl⟩ := hnold h
    exact (hg.node_id hm₀ :)
  case branch_id => exact fun h => hg.branch_id (hbold h).1
  case source_live =>
    intro i b h
    obtain ⟨hb, hi⟩ := hbold h
    exact hlive (fun hs => hi ((hg.mem_incident_iff hn i).mpr ⟨b, hb, .inl hs⟩)) (hg.source_live hb)
  case dest_live =>
    intro i b h
    obtain ⟨hb, hi⟩ := hbold h
    exact hlive (fun hd => hi ((hg.mem_incident_iff hn i).mpr ⟨b, hb, .inr hd⟩)) (hg.dest_live hb)
  case outgoing =>
    intro u m h
    obtain ⟨m₀, hm₀, rfl⟩ := hnold h
    exact (hg.outgoing hm₀).filter hbranch
  case incoming =>
    intro u m h
    obtain ⟨m₀, hm₀, rfl⟩ := hnold h
    exact (hg.incoming hm₀).filter hbranch

end WellFormed

end SignalFlow.Graph
