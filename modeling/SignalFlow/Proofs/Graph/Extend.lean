import SignalFlow.Proofs.Graph.WellFormed

/-!
# Adding and changing

New nodes, new branches, other weights and other names keep a graph well-formed. One lemma per operation says that it
succeeds and what every look-up gives afterwards (`connect_ok`, `setWeight_ok`, `rename_ok`), another that a graph with
these look-ups is well-formed (`of_attach`, `of_setWeight`, `of_rename`).
-/

namespace SignalFlow.Graph

variable {α : Type}

/-! ## New nodes -/

namespace WellFormed

variable {g : Graph α}

theorem createNode (hg : g.WellFormed) (name : String) : (g.createNode name).2.WellFormed := by
  have hfresh : ∀ {v n}, g.node? v = some n → v ≠ ⟨g.nodes.size⟩ := by
    rintro v n h rfl
    exact Nat.lt_irrefl _ (index_lt_of_node? h)
  have hlive : ∀ {v}, (∃ n, g.node? v = some n) → ∃ n, (g.createNode name).2.node? v = some n := by
    rintro v ⟨n, h⟩
    exact ⟨n, by rw [node?_createNode, if_neg (hfresh h), h]⟩
  -- A look-up finds an old node as it was, or the new one, at which no branch ends.
  have hcases : ∀ {v n}, (g.createNode name).2.node? v = some n → g.node? v = some n ∨
      (v = ⟨g.nodes.size⟩ ∧ n = { id := v, name }) := by
    intro v n h
    rw [node?_createNode] at h
    split at h
    · next hv => subst hv; exact .inr ⟨rfl, (Option.some.inj h).symm⟩
    · exact .inl h
  refine ⟨fun h => ?_, hg.branch_id, fun h => hlive (hg.source_live h), fun h => hlive (hg.dest_live h),
    fun h => ?_, fun h => ?_⟩
  · rcases hcases h with h | ⟨rfl, rfl⟩
    · exact hg.node_id h
    · rfl
  · rcases hcases h with h | ⟨rfl, rfl⟩
    · exact ⟨(hg.outgoing h).oldest, (hg.outgoing h).mem_iff⟩
    · refine .nil fun hb hs => ?_
      obtain ⟨n, hn⟩ := hg.source_live hb
      exact hfresh hn hs
  · rcases hcases h with h | ⟨rfl, rfl⟩
    · exact ⟨(hg.incoming h).oldest, (hg.incoming h).mem_iff⟩
    · refine .nil fun hb hd => ?_
      obtain ⟨n, hn⟩ := hg.dest_live hb
      exact hfresh hn hd

end WellFormed

/-! ## New branches -/

/-- A node with a branch added to the lists of those ends at which it is. -/
def Node.attach (b : Branch α) : Node → Node := Node.atEnds b.source b.dest (· ++ [b.id]) (· ++ [b.id])

namespace WellFormed

variable {g : Graph α}

/-- **Connecting live nodes** adds a branch and attaches it to its ends. -/
theorem connect_ok [Scalar α] (hg : g.WellFormed) {source dest : NodeId} {s d : Node}
    (hs : g.node? source = some s) (hd : g.node? dest = some d) (weight : Option (Expr α)) :
    ∃ g' : Graph α, ∃ b : Branch α,
      b = { id := ⟨g.branches.size⟩, source, dest, weight := weight.getD (Expr.literal Scalar.one) } ∧
      g.connect source dest weight = .ok (b.id, g') ∧
      (∀ i, g'.branch? i = if i = b.id then some b else g.branch? i) ∧
      ∀ v, g'.node? v = (g.node? v).map (Node.attach b) := by
  let b : Branch α := { id := ⟨g.branches.size⟩, source, dest, weight := weight.getD (Expr.literal Scalar.one) }
  let g₁ : Graph α := { g with branches := g.branches.push (some b), branchCount := g.branchCount + 1 }
  obtain ⟨d', hd', hnode⟩ := setEnds (g := g₁) hg.node_id hs hd (· ++ [b.id]) (· ++ [b.id])
  refine ⟨_, b, rfl, ?_, fun i => ?_, hnode⟩
  · have h₁ : g.node source = .ok s := node_eq_ok_iff.mpr hs
    have h₂ : g.node dest = .ok d := node_eq_ok_iff.mpr hd
    unfold connect
    rw [h₁, h₂]
    show ((g₁.setNode { s with outgoing := s.outgoing ++ [b.id] }).node dest >>= fun _ => _) = _
    rw [hd']
    rfl
  · rw [branch?_setNode, branch?_setNode]
    simp only [branch?, g₁, join_getElem?_push, ← Id.index_inj, b]


/-- A branch between live nodes may be attached. -/
theorem of_attach (hg : g.WellFormed) {g' : Graph α} {b : Branch α} (hid : b.id = ⟨g.branches.size⟩)
    (hs : ∃ n, g.node? b.source = some n) (hd : ∃ n, g.node? b.dest = some n)
    (hbranch : ∀ i, g'.branch? i = if i = b.id then some b else g.branch? i)
    (hnode : ∀ v, g'.node? v = (g.node? v).map (Node.attach b)) : g'.WellFormed := by
  rw [hid] at hbranch
  have hcases : ∀ {i c}, g'.branch? i = some c → (i = b.id ∧ c = b) ∨ g.branch? i = some c := by
    intro i c h
    rw [hbranch, ← hid] at h
    split at h
    · next hi => exact .inl ⟨hi, (Option.some.inj h).symm⟩
    · exact .inr h
  constructor
  case node_id =>
    intro v n h
    rw [hnode] at h
    obtain ⟨m, hm, rfl⟩ := Option.map_eq_some_iff.mp h
    exact (hg.node_id hm :)
  case branch_id =>
    intro i c h
    rcases hcases h with ⟨rfl, rfl⟩ | h
    · rfl
    · exact hg.branch_id h
  case source_live =>
    intro i c h
    rcases hcases h with ⟨rfl, rfl⟩ | h
    · exact exists_node?_of_map hnode hs
    · exact exists_node?_of_map hnode (hg.source_live h)
  case dest_live =>
    intro i c h
    rcases hcases h with ⟨rfl, rfl⟩ | h
    · exact exists_node?_of_map hnode hd
    · exact exists_node?_of_map hnode (hg.dest_live h)
  case outgoing =>
    intro v n h
    rw [hnode] at h
    obtain ⟨m, hm, rfl⟩ := Option.map_eq_some_iff.mp h
    simpa only [Node.attach, Node.atEnds, hg.node_id hm, hid] using (hg.outgoing hm).snoc hbranch
  case incoming =>
    intro v n h
    rw [hnode] at h
    obtain ⟨m, hm, rfl⟩ := Option.map_eq_some_iff.mp h
    simpa only [Node.attach, Node.atEnds, hg.node_id hm, hid] using (hg.incoming hm).snoc hbranch

end WellFormed

/-! ## Other weights and names -/

theorem setWeight_ok {g : Graph α} {i : BranchId} {b : Branch α} (hb : g.branch? i = some b) (weight : Expr α) :
    ∃ g', g.setWeight i weight = .ok (b.weight, g') ∧ (∀ v, g'.node? v = g.node? v) ∧
      ∀ j, g'.branch? j = if j = i then some { b with weight } else g.branch? j := by
  refine ⟨{ g with branches := g.branches.setIfInBounds i.index (some { b with weight }) }, ?_, fun _ => rfl,
    fun j => ?_⟩
  · rw [setWeight, branch_eq_ok_iff.mpr hb]
    rfl
  · simp only [Graph.branch?, join_getElem?_setIfInBounds, Id.index_inj, index_lt_of_branch? hb, and_true]

namespace WellFormed

variable {g : Graph α}

theorem of_setWeight (hg : g.WellFormed) {i : BranchId} {b : Branch α} (hb : g.branch? i = some b) {weight : Expr α}
    {g' : Graph α} (hnode : ∀ v, g'.node? v = g.node? v)
    (hbranch : ∀ j, g'.branch? j = if j = i then some { b with weight } else g.branch? j) : g'.WellFormed := by
  have hold : ∀ {j c}, g'.branch? j = some c → ∃ c₀, g.branch? j = some c₀ ∧ c.id = c₀.id ∧ c.source = c₀.source ∧
      c.dest = c₀.dest := by
    intro j c h
    rw [hbranch] at h
    split at h
    · next hj => cases h; subst hj; exact ⟨b, hb, rfl, rfl, rfl⟩
    · exact ⟨c, h, rfl, rfl, rfl⟩
  constructor
  case node_id => exact fun h => hg.node_id (hnode _ ▸ h)
  case branch_id =>
    intro j c h
    obtain ⟨c₀, hc₀, hid, -, -⟩ := hold h
    exact hid.trans (hg.branch_id hc₀)
  case source_live =>
    intro j c h
    obtain ⟨c₀, hc₀, -, hs, -⟩ := hold h
    rw [hs, hnode]
    exact hg.source_live hc₀
  case dest_live =>
    intro j c h
    obtain ⟨c₀, hc₀, -, -, hd⟩ := hold h
    rw [hd, hnode]
    exact hg.dest_live hc₀
  case outgoing => exact fun h => (hg.outgoing (hnode _ ▸ h)).replace hb (c := { b with weight }) Iff.rfl hbranch
  case incoming => exact fun h => (hg.incoming (hnode _ ▸ h)).replace hb (c := { b with weight }) Iff.rfl hbranch

theorem rename_ok (hg : g.WellFormed) {v : NodeId} {n : Node} (hn : g.node? v = some n) (name : String) :
    ∃ g', g.rename v name = .ok g' ∧ (∀ i, g'.branch? i = g.branch? i) ∧
      ∀ u, g'.node? u = if u = v then some { n with name } else g.node? u := by
  refine ⟨g.setNode { n with name }, ?_, fun _ => rfl, fun u => ?_⟩
  · rw [rename, node_eq_ok_iff.mpr hn]
    rfl
  · have hid : n.id = v := hg.node_id hn
    simp [node?_setNode, hid, index_lt_of_node? hn]

theorem of_rename (hg : g.WellFormed) {v : NodeId} {n : Node} (hn : g.node? v = some n) {name : String}
    {g' : Graph α} (hbranch : ∀ i, g'.branch? i = g.branch? i)
    (hnode : ∀ u, g'.node? u = if u = v then some { n with name } else g.node? u) : g'.WellFormed := by
  have hold : ∀ {u m}, g'.node? u = some m → ∃ m₀, g.node? u = some m₀ ∧ m.id = m₀.id ∧ m.outgoing = m₀.outgoing ∧
      m.incoming = m₀.incoming := by
    intro u m h
    rw [hnode] at h
    split at h
    · next hu => cases h; subst hu; exact ⟨n, hn, rfl, rfl, rfl⟩
    · exact ⟨m, h, rfl, rfl, rfl⟩
  have hlive : ∀ {u}, (∃ m, g.node? u = some m) → ∃ m, g'.node? u = some m := by
    rintro u ⟨m, hm⟩
    rw [hnode]
    split
    · exact ⟨_, rfl⟩
    · exact ⟨m, hm⟩
  have hlists : ∀ {ids P}, g.Lists ids P → g'.Lists ids P := fun h => ⟨h.oldest, fun i => hbranch i ▸ h.mem_iff i⟩
  constructor
  case node_id =>
    intro u m h
    obtain ⟨m₀, hm₀, hid, -, -⟩ := hold h
    exact hid.trans (hg.node_id hm₀)
  case branch_id => exact fun h => hg.branch_id (hbranch _ ▸ h)
  case source_live => exact fun h => hlive (hg.source_live (hbranch _ ▸ h))
  case dest_live => exact fun h => hlive (hg.dest_live (hbranch _ ▸ h))
  case outgoing =>
    intro u m h
    obtain ⟨m₀, hm₀, -, hout, -⟩ := hold h
    exact hout ▸ hlists (hg.outgoing hm₀)
  case incoming =>
    intro u m h
    obtain ⟨m₀, hm₀, -, -, hin⟩ := hold h
    exact hin ▸ hlists (hg.incoming hm₀)

end WellFormed

end SignalFlow.Graph
