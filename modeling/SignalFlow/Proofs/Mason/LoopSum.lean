import SignalFlow.Proofs.Graph.Enumeration
import SignalFlow.Proofs.Mason.Expansion
import SignalFlow.Proofs.Mason.Flow

/-!
# The loops expand the determinant

The expansion over the loops of a graph that keep off some nodes is the determinant of its flow with those nodes cut
out (`expansion_loopWalks`). The loops are listed anchor by anchor, so the induction is on the anchors: all loops of an
anchor touch each other, hence `expansion_append` takes each off with what is left once its nodes are cut out, and
`sum_walks` says that this is what cutting out the anchor takes off the determinant (`flowDet_anchor`).
-/

namespace SignalFlow

/-- Lists of nodes share a node if a member of the one is one of the other. -/
theorem Path.sharesNode_iff {xs ys : List NodeId} : sharesNode xs ys = true ↔ ∃ v ∈ xs, v ∈ ys := by
  simp [sharesNode]

theorem Path.sharesNode_eq_false_iff {xs ys : List NodeId} : sharesNode xs ys = false ↔ ∀ v ∈ xs, v ∉ ys := by
  simp [sharesNode]

namespace Graph

variable {α R : Type} [CommRing R] {g : Graph α} {w : Branch α → R}

/-- Whether two loops have a node in common. -/
def meet (bs cs : List (Branch α)) : Bool := Path.sharesNode (bs.map Branch.source) (cs.map Branch.source)

/-- Whether a loop has none of some nodes. -/
def keepsOff (nodes : List NodeId) (bs : List (Branch α)) : Bool := !Path.sharesNode (bs.map Branch.source) nodes

/-- The walks listed that enter none of some nodes are those listed when these are to be avoided, too. -/
theorem walks_filter (hg : g.WellFormed) (target : NodeId) (nodes : List NodeId) (untried : List (Branch α))
    (avoid avoid' : List NodeId) (hlive : ∀ b ∈ untried, b ∈ g.liveBranches)
    (havoid : ∀ v, v ∈ avoid' ↔ v ∈ nodes ∨ v ∈ avoid) :
    ((g.walks target untried avoid).filter fun bs => !Path.sharesNode (bs.map Branch.dest) nodes) =
      g.walks target untried avoid' := by
  refine walks_induction (P := fun untried avoid => ∀ avoid', (∀ v, v ∈ avoid' ↔ v ∈ nodes ∨ v ∈ avoid) →
    ((g.walks target untried avoid).filter fun bs => !Path.sharesNode (bs.map Branch.dest) nodes) =
      g.walks target untried avoid') hg target ?nil ?pass ?stop ?enter untried avoid hlive avoid' havoid
  case nil =>
    intro avoid avoid' _
    simp
  case pass =>
    intro b rest avoid _ h ih avoid' havoid
    rw [walks_cons_of_mem h, walks_cons_of_mem ((havoid _).mpr (.inr h)), ih avoid' havoid]
  case stop =>
    intro b rest avoid hb h htarget ih avoid' havoid
    rw [walks_cons_of_eq (hg.dest_mem_liveIds hb) h htarget, List.filter_cons, ih avoid' havoid]
    by_cases hnode : b.dest ∈ nodes
    · rw [walks_cons_of_mem ((havoid _).mpr (.inl hnode)), if_neg (by simp [Path.sharesNode, hnode])]
    · have hnot : b.dest ∉ avoid' := fun h' => ((havoid _).mp h').elim hnode h
      rw [walks_cons_of_eq (hg.dest_mem_liveIds hb) hnot htarget, if_pos (by simp [Path.sharesNode, hnode])]
  case enter =>
    intro b rest avoid hb h htarget ih₁ ih₂ avoid' havoid
    rw [walks_cons_of_ne (hg.dest_mem_liveIds hb) h htarget, List.filter_append, ih₂ avoid' havoid, List.filter_map]
    by_cases hnode : b.dest ∈ nodes
    · rw [walks_cons_of_mem ((havoid _).mpr (.inl hnode))]
      simp [Function.comp_def, Path.sharesNode, hnode]
    · have hnot : b.dest ∉ avoid' := fun h' => ((havoid _).mp h').elim hnode h
      have hnext : ∀ v, v ∈ b.dest :: avoid' ↔ v ∈ nodes ∨ v ∈ b.dest :: avoid := by
        intro v
        rw [List.mem_cons, List.mem_cons, havoid, or_left_comm]
      rw [walks_cons_of_ne (hg.dest_mem_liveIds hb) hnot htarget, ← ih₁ _ hnext]
      simp [Function.comp_def, Path.sharesNode, hnode]

/-- A loop has the nodes that it enters. -/
theorem keepsOff_eq {v : NodeId} {bs : List (Branch α)} (h : Walk g v bs v) (nodes : List NodeId) :
    keepsOff nodes bs = !Path.sharesNode (bs.map Branch.dest) nodes := by
  rw [keepsOff, Path.sharesNode, Path.sharesNode, (Loop.sources_perm h).any_eq]

/-- The loops that keep off some nodes and off those of a loop. -/
theorem filter_keepsOff_filter_meet (nodes : List NodeId) (bs : List (Branch α)) (loops : List (List (Branch α))) :
    ((loops.filter (keepsOff nodes)).filter fun cs => !meet bs cs) =
      loops.filter (keepsOff (bs.map Branch.source ++ nodes)) := by
  rw [List.filter_filter]
  refine List.filter_congr fun cs _ => Bool.eq_iff_iff.mpr ?_
  simp only [Bool.and_eq_true, keepsOff, meet, Bool.not_eq_true', Path.sharesNode_eq_false_iff, List.mem_append, not_or]
  constructor
  · rintro ⟨hmeet, hnodes⟩ v hv
    exact ⟨fun hb => hmeet v hb hv, hnodes v hv⟩
  · intro h
    exact ⟨fun v hb hv => (h v hv).1 hb, fun v hv => (h v hv).2⟩

/-- With a node in `nodes`, no loop at this node keeps off them. -/
theorem filter_keepsOff_of_mem (hg : g.WellFormed) {v : NodeId} {earlier nodes : List NodeId} (hv : v ∈ nodes) :
    (g.walks v (g.leaving v) earlier).filter (keepsOff nodes) = [] := by
  refine List.filter_eq_nil_iff.mpr fun bs hbs h => ?_
  rw [keepsOff, Bool.not_eq_true', Path.sharesNode_eq_false_iff] at h
  exact h v (loop_of_mem_walks hg hbs).mem_sources hv

/-- The loops at a node that keep off some nodes are those listed when these are to be avoided, too. -/
theorem filter_keepsOff (hg : g.WellFormed) (v : NodeId) (earlier nodes : List NodeId) :
    (g.walks v (g.leaving v) earlier).filter (keepsOff nodes) = g.walks v (g.leaving v) (nodes ++ earlier) := by
  rw [← walks_filter hg v nodes (g.leaving v) earlier (nodes ++ earlier) (fun b hb => (mem_leaving.mp hb).1)
    fun u => List.mem_append]
  exact List.filter_congr fun bs hbs => keepsOff_eq (loop_of_mem_walks hg hbs).walk nodes

/-- **The loops of an anchor take off** the determinant what cutting out the anchor does. -/
theorem flowDet_anchor (hg : g.WellFormed) (w : Branch α → R) (v : g.LiveNode) {earlier : List NodeId}
    (hv : v.1 ∉ earlier) (nodes : List NodeId) :
    g.flowDet w (nodes ++ v.1 :: earlier) - (((g.walks v (g.leaving v) earlier).filter (keepsOff nodes)).map fun bs =>
      (bs.map w).prod * g.flowDet w ((bs.map Branch.source ++ nodes) ++ v.1 :: earlier)).sum =
      g.flowDet w (nodes ++ earlier) := by
  by_cases hnodes : v.1 ∈ nodes
  · -- The anchor is cut out already, and no loop of it is left.
    rw [filter_keepsOff_of_mem hg hnodes, List.map_nil, List.sum_nil, sub_zero]
    refine flowDet_congr g w fun u => ?_
    by_cases huv : u = v.1
    · simp [huv, hnodes]
    · simp [huv]
  · have hnot : v.1 ∉ nodes ++ earlier := by simp [hnodes, hv]
    have hloop : ∀ bs ∈ g.walks v (g.leaving v) (nodes ++ earlier),
        (bs.map w).prod * g.flowDet w ((bs.map Branch.source ++ nodes) ++ v.1 :: earlier) =
          (bs.map w).prod * g.flowDet w (bs.map Branch.dest ++ (nodes ++ earlier)) := by
      intro bs hbs
      have hloop := loop_of_mem_walks hg hbs
      have hsources : ∀ u, u ∈ bs.map Branch.source ↔ u ∈ bs.map Branch.dest :=
        fun u => (Loop.sources_perm hloop.walk).mem_iff
      refine congrArg (_ * ·) (flowDet_congr g w fun u => ?_)
      by_cases huv : u = v.1
      · simp only [huv, List.mem_append, hloop.mem_sources, (hsources _).mp hloop.mem_sources, true_or]
      · simp only [List.mem_append, List.mem_cons, huv, false_or, hsources, or_assoc]
    have hanchor : g.flowDet w (nodes ++ v.1 :: earlier) = g.flowDet w (v.1 :: (nodes ++ earlier)) :=
      flowDet_congr g w fun u => by simp [or_left_comm]
    rw [filter_keepsOff hg, List.map_congr_left hloop,
      sum_walks hg w v (g.leaving v) (nodes ++ earlier) (fun b hb => (mem_leaving.mp hb).1) hnot, hanchor, flowDet,
      flowDet, det_cut (X := g.cutOut (nodes ++ earlier)) (a := v) (g.flowMatrix w) (by simpa using hnot),
      ← cutOut_cons]
    simp only [flowMatrix_apply, flowTo]

/-- **The loops expand the determinant**: the expansion over the loops that keep off some nodes is the determinant with
these nodes cut out. -/
theorem expansion_loopWalks (hg : g.WellFormed) (w : Branch α → R) {earlier anchors : List NodeId}
    (hsplit : earlier.reverse ++ anchors = g.liveIds) (nodes : List NodeId) :
    LoopTable.expansion meet (fun bs => (bs.map w).prod) ((g.loopWalks earlier anchors).filter (keepsOff nodes)) =
      g.flowDet w (nodes ++ earlier) := by
  induction anchors generalizing earlier nodes with
  | nil =>
    have hall : g.cutOut (nodes ++ earlier) = Finset.univ := by
      ext v
      have hv : v.1 ∈ earlier := by simpa [← hsplit] using v.2
      simp [hv]
    rw [loopWalks, flowDet, hall, cut_univ, Matrix.det_one]
    exact LoopTable.expansion_nil _ _
  | cons v rest ih =>
    have hsplit' : (v :: earlier).reverse ++ rest = g.liveIds := by simpa using hsplit
    have hlive : v ∈ g.liveIds := hsplit ▸ List.mem_append_right _ List.mem_cons_self
    have hnodup : (earlier.reverse ++ v :: rest).Nodup := hsplit ▸ nodup_of_oldest hg.oldest_liveIds
    have hearlier : v ∉ earlier := fun h =>
      List.disjoint_of_nodup_append hnodup (List.mem_reverse.mpr h) List.mem_cons_self
    have hclique : ((g.walks v (g.leaving v) earlier).filter (keepsOff nodes)).Pairwise
        fun bs cs => meet bs cs = true := by
      refine List.pairwise_of_forall_mem_list fun bs hbs cs hcs => Path.sharesNode_iff.mpr ⟨v, ?_, ?_⟩
      · exact (loop_of_mem_walks hg (List.mem_filter.mp hbs).1).mem_sources
      · exact (loop_of_mem_walks hg (List.mem_filter.mp hcs).1).mem_sources
    rw [loopWalks, List.filter_append, LoopTable.expansion_append meet _ hclique, ih hsplit']
    simp only [filter_keepsOff_filter_meet, ih hsplit']
    exact flowDet_anchor hg w ⟨v, hlive⟩ hearlier nodes

end Graph

end SignalFlow
