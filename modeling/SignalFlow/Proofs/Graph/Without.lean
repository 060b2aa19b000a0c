import SignalFlow.Proofs.Graph.Enumeration

/-!
# Graphs without some nodes

Destroying nodes one after the other leaves the branches that touch none of them (`WellFormed.destroyNodes_ok`). What
is left of a graph (`Without`) has the walks and loops of the graph that keep off the nodes (`Without.walk_iff`,
`Without.loop_iff`), and lists these loops in the same order (`Without.loopWalks_eq`): a list of loops in the order of
enumeration is determined by its members.
-/

namespace SignalFlow.Graph

variable {α : Type} {g g' : Graph α} {vs : List NodeId}

/-- **Removes nodes**, one after the other. -/
def destroyNodes (g : Graph α) : List NodeId → Except GraphError (Graph α)
  | [] => .ok g
  | v :: rest => do
    let (_, g) ← g.destroyNode v
    g.destroyNodes rest

/-- Whether a branch touches none of some nodes. -/
def Branch.keepsOff (vs : List NodeId) (b : Branch α) : Bool := b.source ∉ vs && b.dest ∉ vs

theorem Branch.keepsOff_iff {b : Branch α} : b.keepsOff vs = true ↔ b.source ∉ vs ∧ b.dest ∉ vs := by
  rw [keepsOff, Bool.and_eq_true, decide_eq_true_eq, decide_eq_true_eq]

/-- **A graph without some nodes**, as the look-ups show it. -/
structure Without (g : Graph α) (vs : List NodeId) (g' : Graph α) : Prop where
  wellFormed : g'.WellFormed
  branch? : ∀ i, g'.branch? i = (g.branch? i).filter (Branch.keepsOff vs)
  live : ∀ u, u ∈ g'.liveIds ↔ u ∈ g.liveIds ∧ u ∉ vs

/-! ## Destroying nodes -/

namespace WellFormed

theorem without_nil (hg : g.WellFormed) : g.Without [] g := by
  refine ⟨hg, fun i => ?_, fun u => by simp⟩
  cases g.branch? i with
  | none => rfl
  | some b => rw [Option.filter_some, if_pos (Branch.keepsOff_iff.mpr ⟨List.not_mem_nil, List.not_mem_nil⟩)]

/-- Without one node more. -/
theorem without_cons {g₁ : Graph α} {v : NodeId} (h : g.Without [v] g₁) (h' : g₁.Without vs g') :
    g.Without (v :: vs) g' := by
  refine ⟨h'.wellFormed, fun i => ?_, fun u => ?_⟩
  · rw [h'.branch?, h.branch?, Option.filter_filter]
    congr 1
    funext b
    simp only [Branch.keepsOff, List.mem_cons, List.not_mem_nil, or_false, not_or, Bool.decide_and]
    ac_rfl
  · rw [h'.live, h.live, and_assoc, List.mem_singleton, List.mem_cons, not_or]

/-- **Destroying a live node** leaves the graph without it. -/
theorem destroyNode_without (hg : g.WellFormed) {v : NodeId} (hv : v ∈ g.liveIds) :
    ∃ n g', g.destroyNode v = .ok (n, g') ∧ g.Without [v] g' := by
  obtain ⟨n, hn⟩ := hg.mem_liveIds.mp hv
  obtain ⟨g', hok, hbranch, hnode⟩ := hg.destroyNode_ok hn
  have hwf := hg.of_destroyed hn hbranch hnode
  refine ⟨_, g', hok, hwf, fun i => ?_, fun u => ?_⟩
  · rw [hbranch]
    cases hb : g.branch? i with
    | none => exact ite_self none
    | some b =>
      have hincident : i ∈ n.incident ↔ b.keepsOff [v] = false := by
        rw [hg.mem_incident_iff hn, ← Bool.not_eq_true, Branch.keepsOff_iff, List.mem_singleton, List.mem_singleton,
          not_and_or, not_not, not_not]
        exact ⟨fun ⟨c, hc, h⟩ => Option.some.inj (hb.symm.trans hc) ▸ h, fun h => ⟨b, hb, h⟩⟩
      rw [Option.filter_some]
      by_cases hi : i ∈ n.incident
      · rw [if_pos hi, hincident.mp hi, if_neg Bool.false_ne_true]
      · rw [if_neg hi, if_pos (Bool.eq_true_of_not_eq_false (mt hincident.mpr hi))]
  · rw [hwf.mem_liveIds, hg.mem_liveIds, List.mem_singleton, hnode]
    by_cases hu : u = v
    · simp [hu]
    · simp [hu, Option.map_eq_some_iff]

/-- **Destroying live nodes**, each once, leaves the graph without them. -/
theorem destroyNodes_ok (hg : g.WellFormed) (hnodup : vs.Nodup) (hlive : ∀ v ∈ vs, v ∈ g.liveIds) :
    ∃ g', g.destroyNodes vs = .ok g' ∧ g.Without vs g' := by
  induction vs generalizing g with
  | nil => exact ⟨g, rfl, hg.without_nil⟩
  | cons v rest ih =>
    obtain ⟨hv, hrest⟩ := List.nodup_cons.mp hnodup
    obtain ⟨hvlive, hlive⟩ := List.forall_mem_cons.mp hlive
    obtain ⟨n, g₁, hok, h₁⟩ := hg.destroyNode_without hvlive
    obtain ⟨g₂, hok₂, h₂⟩ := ih h₁.wellFormed hrest fun u hu => (h₁.live u).mpr
      ⟨hlive u hu, fun h => hv (List.mem_singleton.mp h ▸ hu)⟩
    exact ⟨g₂, by rw [destroyNodes, hok]; exact hok₂, without_cons h₁ h₂⟩

end WellFormed

/-! ## What is left -/

/-- No two loops are before each other. -/
theorem loopBefore_asymm {p q : Path} (hpq : g.LoopBefore p q) : ¬g.LoopBefore q p := by
  rintro ⟨v', u', hv', hu', hqp⟩
  obtain ⟨u, v, hu, hv, hpq⟩ := hpq
  obtain rfl : u = u' := Option.some.inj (hu.symm.trans hu')
  obtain rfl : v = v' := Option.some.inj (hv.symm.trans hv')
  have hlex : ∀ {is js : List Id}, IdsLt is js → ¬IdsLt js is := fun hlt hgt =>
    idsLt_irrefl _ (List.lex_trans (fun hij hjk => Nat.lt_trans hij hjk) hlt hgt)
  rcases hpq with hlt | ⟨rfl, hlt⟩
  · rcases hqp with hgt | ⟨rfl, -⟩
    · exact Nat.lt_asymm hlt hgt
    · exact Nat.lt_irrefl _ hlt
  · rcases hqp with hgt | ⟨-, hgt⟩
    · exact Nat.lt_irrefl _ hgt
    · exact hlex hlt hgt

namespace Without

variable {u v t : NodeId} {b : Branch α} {bs : List (Branch α)}

theorem mem_liveBranches (h : g.Without vs g') (hg : g.WellFormed) :
    b ∈ g'.liveBranches ↔ b ∈ g.liveBranches ∧ b.source ∉ vs ∧ b.dest ∉ vs := by
  rw [h.wellFormed.mem_liveBranches, hg.mem_liveBranches, h.branch?, Option.filter_eq_some_iff, Branch.keepsOff_iff]

/-- **The walks that are left** touch none of the nodes. -/
theorem walk_iff (h : g.Without vs g') (hg : g.WellFormed) :
    Walk g' u bs t ↔ Walk g u bs t ∧ ∀ b ∈ bs, b.source ∉ vs ∧ b.dest ∉ vs := by
  induction bs generalizing u with
  | nil => rw [Walk.nil_iff, Walk.nil_iff, and_iff_left (List.forall_mem_nil _)]
  | cons b bs ih =>
    rw [Walk.cons_iff, Walk.cons_iff, List.forall_mem_cons, ih, h.mem_liveBranches hg]
    tauto

/-- **The loops that are left** keep off the nodes. -/
theorem loop_iff (h : g.Without vs g') (hg : g.WellFormed) :
    Loop g' v bs ↔ Loop g v bs ∧ ∀ b ∈ bs, b.source ∉ vs := by
  constructor
  · rintro ⟨hne, hwalk, hnodup⟩
    obtain ⟨hwalk, hoff⟩ := (h.walk_iff hg).mp hwalk
    exact ⟨⟨hne, hwalk, hnodup⟩, fun b hb => (hoff b hb).1⟩
  · rintro ⟨⟨hne, hwalk, hnodup⟩, hoff⟩
    refine ⟨hne, (h.walk_iff hg).mpr ⟨hwalk, fun b hb => ⟨hoff b hb, ?_⟩⟩, hnodup⟩
    obtain ⟨c, hc, hcb⟩ := List.mem_map.mp ((Loop.sources_perm hwalk).symm.subset (List.mem_map_of_mem hb))
    exact hcb ▸ hoff c hc

/-- Loops that are left are in the order in which they were. -/
theorem loopBefore (h : g.Without vs g') {p q : Path} (hpq : g'.LoopBefore p q) : g.LoopBefore p q := by
  have hsource : ∀ {p : Path} {u : NodeId}, (p.branches.head?.bind g'.branch?).map Branch.source = some u →
      (p.branches.head?.bind g.branch?).map Branch.source = some u := by
    intro p u hp
    obtain ⟨b, hb, rfl⟩ := Option.map_eq_some_iff.mp hp
    obtain ⟨i, hi, hb⟩ := Option.bind_eq_some_iff.mp hb
    rw [h.branch?, Option.filter_eq_some_iff] at hb
    rw [hi, Option.bind_some, hb.1, Option.map_some]
  obtain ⟨u, v, hu, hv, hlt⟩ := hpq
  exact ⟨u, v, hsource hu, hsource hv, hlt⟩

/-- **The loops that are left** are listed as the graph lists them. -/
theorem loopWalks_eq (h : g.Without vs g') (hg : g.WellFormed) :
    g'.loopWalks [] g'.liveIds = (g.loopWalks [] g.liveIds).filter fun bs => bs.all (·.source ∉ vs) := by
  have hsorted : (g.loopWalks [] g.liveIds).Pairwise fun p q => g.LoopBefore (pathOf p) (pathOf q) :=
    loopWalks_pairwise hg rfl
  have hsorted' : (g'.loopWalks [] g'.liveIds).Pairwise fun p q => g.LoopBefore (pathOf p) (pathOf q) :=
    (loopWalks_pairwise h.wellFormed rfl).imp h.loopBefore
  have hnodup : ∀ {ws : List (List (Branch α))}, (ws.Pairwise fun p q => g.LoopBefore (pathOf p) (pathOf q)) →
      ws.Nodup := by
    intro ws hws
    refine List.Pairwise.imp (fun {p q} hpq => ?_) hws
    rintro rfl
    exact g.loopBefore_irrefl _ hpq
  have hfilter := hsorted.filter fun bs => bs.all (·.source ∉ vs)
  refine ((List.perm_ext_iff_of_nodup (hnodup hsorted') (hnodup hfilter)).mpr fun bs => ?_).eq_of_pairwise
    (fun p q _ _ hpq hqp => absurd hqp (loopBefore_asymm hpq)) hsorted' hfilter
  rw [List.mem_filter, mem_loopWalks_iff h.wellFormed rfl, mem_loopWalks_iff hg rfl, List.all_eq_true]
  simp only [decide_eq_true_eq]
  constructor
  · rintro ⟨v, hv, hloop, hfirst⟩
    obtain ⟨hloop, hoff⟩ := (h.loop_iff hg).mp hloop
    exact ⟨⟨v, ((h.live v).mp hv).1, hloop, hfirst⟩, hoff⟩
  · rintro ⟨⟨v, hv, hloop, hfirst⟩, hoff⟩
    obtain ⟨b, hb, rfl⟩ := List.mem_map.mp hloop.mem_sources
    exact ⟨b.source, (h.live _).mpr ⟨hv, hoff b hb⟩, (h.loop_iff hg).mpr ⟨hloop, hoff⟩, hfirst⟩

end Without

end SignalFlow.Graph
