import SignalFlow.Mason.Solve
import SignalFlow.Proofs.Mason.LoopSum

/-!
# The determinant of a graph

In exact arithmetic the determinant of a graph over its loops is the determinant of `1 - A`, where `A` is the flow
matrix (`determinant_exact`). The loop table of a graph holds the gains and the nodes of the enumerated loops
(`ofLoops_eq`), so the determinant over its loops that avoid some nodes has the value of their expansion
(`value_avoiding`), and `expansion_loopWalks` says what this is.
-/

namespace SignalFlow

open SignalFlow.Graph (Branch Walk Loop pathOf meet keepsOff)

variable {α R : Type} {g : Graph α}

/-- What succeeds for every item succeeds for a list of them. -/
theorem mapM_map_eq_ok {β γ δ ε : Type} (f : β → γ) {h : γ → Except ε δ} {k : β → δ} {xs : List β}
    (hok : ∀ x ∈ xs, h (f x) = .ok (k x)) : (xs.map f).mapM h = .ok (xs.map k) := by
  induction xs with
  | nil => rfl
  | cons x xs ih =>
    rw [List.map_cons, List.mapM_cons, hok x List.mem_cons_self, ih fun y hy => hok y (List.mem_cons_of_mem _ hy)]
    rfl

/-! ## Paths of live branches -/

namespace Path

theorem resolve_pathOf (hg : g.WellFormed) {bs : List (Branch α)} (hbs : ∀ b ∈ bs, b ∈ g.liveBranches) :
    (pathOf bs).resolve g = .ok bs := by
  have h := mapM_map_eq_ok Branch.id (k := id) fun b hb =>
    Graph.branch_eq_ok_iff.mpr (hg.mem_liveBranches.mp (hbs b hb))
  rwa [List.map_id] at h

theorem gain_pathOf [Scalar α] (hg : g.WellFormed) {bs : List (Branch α)} (hbs : ∀ b ∈ bs, b ∈ g.liveBranches) :
    (pathOf bs).gain g = .ok (product (bs.map Branch.weight)) := by
  rw [gain, resolve_pathOf hg hbs]
  rfl

theorem nodes_pathOf (hg : g.WellFormed) {bs : List (Branch α)} (hbs : ∀ b ∈ bs, b ∈ g.liveBranches) :
    (pathOf bs).nodes g = .ok (nodesOf bs) := by
  rw [nodes, resolve_pathOf hg hbs]
  rfl

/-- The last branch of a walk leads to its target. -/
theorem dest_of_getLast? {v t : NodeId} {bs : List (Branch α)} (h : Walk g v bs t) {last : Branch α}
    (hlast : bs.getLast? = some last) : last.dest = t := by
  obtain ⟨init, rfl⟩ := List.getLast?_eq_some_iff.mp hlast
  obtain ⟨u, -, hw⟩ := Walk.append_iff.mp h
  obtain ⟨-, -, hw⟩ := Walk.cons_iff.mp hw
  exact Walk.nil_iff.mp hw

/-- **A loop has the nodes that its branches leave.** -/
theorem nodesOf_loop {v : NodeId} {bs : List (Branch α)} (h : Walk g v bs v) : nodesOf bs = bs.map Branch.source := by
  unfold nodesOf
  cases hlast : bs.getLast? with
  | none => rw [List.getLast?_eq_none_iff.mp hlast]; rfl
  | some last =>
    cases bs with
    | nil => cases hlast
    | cons b bs =>
      have hhead : b.source = last.dest := (Walk.cons_iff.mp h).2.1.trans (dest_of_getLast? h hlast).symm
      show (if some b.source = some last.dest then _ else _) = _
      rw [hhead, if_pos rfl]

/-- **An open path has the node it begins at and those its branches enter.** -/
theorem nodesOf_walk {v t : NodeId} {bs : List (Branch α)} (h : Walk g v bs t) (hvt : v ≠ t) :
    nodesOf bs = v :: bs.map Branch.dest := by
  unfold nodesOf
  cases hlast : bs.getLast? with
  | none =>
    obtain rfl := List.getLast?_eq_none_iff.mp hlast
    exact absurd (Walk.nil_iff.mp h) hvt
  | some last =>
    cases bs with
    | nil => cases hlast
    | cons b bs =>
      have hdest : last.dest = t := dest_of_getLast? h hlast
      have hne : ¬some b.source = some last.dest := by
        rw [(Walk.cons_iff.mp h).2.1, hdest, Option.some_inj]
        exact hvt
      show (if some b.source = some last.dest then _ else _) = _
      rw [if_neg hne, hdest, h.sources_append]

end Path

/-! ## The loop table -/

namespace LoopTable

theorem avoiding_nil (table : LoopTable α) : table.avoiding [] = table.all := by
  simp [avoiding, Path.sharesNode]

theorem avoiding_pairwise (table : LoopTable α) (nodes : List NodeId) : (table.avoiding nodes).Pairwise (· < ·) :=
  List.pairwise_lt_range.filter _

variable [Scalar α]

/-- The loop table of some loops. -/
def ofWalks (ws : List (List (Branch α))) : LoopTable α :=
  (ws.map fun bs => ⟨Path.product (bs.map Branch.weight), bs.map Branch.source⟩).toArray

theorem ofLoops_eq (hg : g.WellFormed) {ws : List (List (Branch α))} (hws : ∀ bs ∈ ws, ∃ v, Walk g v bs v) :
    ofLoops g (ws.map pathOf) = .ok (ofWalks ws) := by
  have hdata : ∀ bs ∈ ws, (do return ⟨← (pathOf bs).gain g, ← (pathOf bs).nodes g⟩ : Except GraphError (LoopData α)) =
      .ok ⟨Path.product (bs.map Branch.weight), bs.map Branch.source⟩ := by
    intro bs hbs
    obtain ⟨v, hv⟩ := hws bs hbs
    have hlive : ∀ b ∈ bs, b ∈ g.liveBranches := fun b hb => hv.mem_liveBranches hb
    rw [Path.gain_pathOf hg hlive, Path.nodes_pathOf hg hlive, Path.nodesOf_loop hv]
    rfl
  show ((ws.map pathOf).mapM _ >>= fun _ => _) = _
  rw [mapM_map_eq_ok pathOf hdata]
  rfl

variable (ws : List (List (Branch α)))

/-- The loop of an index; an index without a loop has the empty one. -/
def loopAt (i : Nat) : List (Branch α) := ws[i]?.getD []

theorem nodesOf_ofWalks (i : Nat) : (ofWalks ws).nodesOf i = (loopAt ws i).map Branch.source := by
  unfold nodesOf ofWalks loopAt
  rw [List.getElem?_toArray, List.getElem?_map]
  cases ws[i]? <;> rfl

theorem touch_ofWalks (i j : Nat) : (ofWalks ws).touch i j = meet (loopAt ws i) (loopAt ws j) := by
  rw [touch, nodesOf_ofWalks, nodesOf_ofWalks, meet]

theorem gainOf_ofWalks (i : Nat) : (ofWalks ws).gainOf i = Path.product ((loopAt ws i).map Branch.weight) := by
  unfold gainOf ofWalks loopAt
  rw [List.getElem?_toArray, List.getElem?_map]
  cases ws[i]? <;> rfl

theorem map_loopAt_all : (ofWalks ws).all.map (loopAt ws) = ws := by
  refine List.ext_getElem (by simp [all, ofWalks]) fun i h₁ h₂ => ?_
  simp [all, ofWalks, loopAt, h₂]

/-- The indices of the loops that avoid some nodes, and these loops. -/
theorem map_loopAt_avoiding (nodes : List NodeId) :
    ((ofWalks ws).avoiding nodes).map (loopAt ws) = ws.filter (keepsOff nodes) := by
  have hfilter : (fun i => !Path.sharesNode ((ofWalks ws).nodesOf i) nodes) = keepsOff nodes ∘ loopAt ws := by
    funext i
    rw [nodesOf_ofWalks]
    rfl
  rw [avoiding, hfilter, ← List.filter_map, map_loopAt_all]

variable [CommRing R] [Scalar R] [Scalar.Exact R] {r : Reading α R} {T : Bindings R} {w : Branch α → R}

/-- **The determinant over the loops that avoid some nodes** has the value of their expansion. -/
theorem value_avoiding (hws : ∀ bs ∈ ws, ∀ b ∈ bs, r.value T b.weight = .ok (w b)) (nodes : List NodeId) :
    r.value T ((ofWalks ws).determinantOf ((ofWalks ws).avoiding nodes) none) =
      .ok (expansion meet (fun bs => (bs.map w).prod) (ws.filter (keepsOff nodes))) := by
  have hgain : ∀ i ∈ (ofWalks ws).avoiding nodes,
      r.value T ((ofWalks ws).gainOf i) = .ok ((loopAt ws i).map w).prod := by
    intro i _
    rw [gainOf_ofWalks]
    refine Path.value_product fun b hb => ?_
    unfold loopAt at hb
    cases hbs : ws[i]? with
    | none => rw [hbs] at hb; cases hb
    | some bs => rw [hbs] at hb; exact hws bs (List.mem_of_getElem? hbs) b hb
  have htouch : (ofWalks ws).touch = fun i j => meet (loopAt ws i) (loopAt ws j) :=
    funext₂ (touch_ofWalks ws)
  rw [value_determinantOf (avoiding_pairwise _ nodes) hgain, ← map_loopAt_avoiding, expansion_map, htouch]

end LoopTable

/-! ## The determinant -/

namespace Graph

/-- The walks that loop are walks from a node back to it. -/
theorem walk_of_mem_loopWalks (hg : g.WellFormed) {bs : List (Branch α)} (h : bs ∈ g.loopWalks [] g.liveIds) :
    ∃ v, Walk g v bs v := by
  obtain ⟨v, -, hloop, -⟩ := (mem_loopWalks_iff hg rfl bs).mp h
  exact ⟨v, hloop.walk⟩

variable [Scalar α]

/-- The loop table of a graph. -/
def loopTable (g : Graph α) : LoopTable α := LoopTable.ofWalks (g.loopWalks [] g.liveIds)

/-- The enumerated loops have the loop table of the graph. -/
theorem ofLoops_loops (hg : g.WellFormed) :
    LoopTable.ofLoops g ((g.loopWalks [] g.liveIds).map pathOf) = .ok g.loopTable :=
  LoopTable.ofLoops_eq hg fun _ => walk_of_mem_loopWalks hg

variable [CommRing R] [Scalar R] [Scalar.Exact R] {r : Reading α R} {T : Bindings R} {w : Branch α → R}

/-- **The determinant over the loops that avoid some nodes** is that of the flow with these nodes cut out. -/
theorem value_determinantOf_avoiding (hg : g.WellFormed) (hw : ∀ b ∈ g.liveBranches, r.value T b.weight = .ok (w b))
    (nodes : List NodeId) :
    r.value T (g.loopTable.determinantOf (g.loopTable.avoiding nodes) none) = .ok (g.flowDet w nodes) := by
  have hws : ∀ bs ∈ g.loopWalks [] g.liveIds, ∀ b ∈ bs, r.value T b.weight = .ok (w b) := by
    intro bs hbs b hb
    obtain ⟨v, hv⟩ := walk_of_mem_loopWalks hg hbs
    exact hw b (hv.mem_liveBranches hb)
  rw [loopTable, LoopTable.value_avoiding _ hws, expansion_loopWalks hg w rfl, List.append_nil]

/-- The determinant over all loops is that of `1 - A`. -/
theorem value_determinantOf_all (hg : g.WellFormed) (hw : ∀ b ∈ g.liveBranches, r.value T b.weight = .ok (w b)) :
    r.value T (g.loopTable.determinantOf g.loopTable.all none) = .ok (1 - g.flowMatrix w).det := by
  have hvalue := value_determinantOf_avoiding hg hw []
  rwa [LoopTable.avoiding_nil, flowDet, cutOut_nil, cut_empty] at hvalue

/-- **The determinant of a graph is the determinant of `1 - A`**, where `A` has for every two live nodes the sum of the
weights of the branches from the first to the second. -/
theorem determinant_exact (hg : g.Reachable) (r : Reading α R) (T : Bindings R) (w : Branch α → R)
    (hw : ∀ b ∈ g.liveBranches, r.value T b.weight = .ok (w b)) (config : SolverConfig)
    (hconfig : config.simplify = false) :
    ∃ loops det, g.loops = .ok loops ∧ g.determinant loops config = .ok det ∧
      r.value T det = .ok (1 - g.flowMatrix w).det := by
  have hwf := hg.wellFormed
  refine ⟨_, _, loops_eq hwf, ?_, value_determinantOf_all hwf hw⟩
  unfold determinant
  rw [ofLoops_loops hwf, SolverConfig.simplifyConfig, hconfig]
  rfl

/-- The determinant of two nodes that feed each other. -/
theorem determinant_exact_feedback :
    ∃ loops det, (feedback ℚ).loops = .ok loops ∧
      (feedback ℚ).determinant loops { simplify := false } = .ok det ∧
      Reading.rational.value {} det = .ok (1 - (feedback ℚ).flowMatrix fun _ => (1 : ℚ)).det := by
  have hw : ∀ b ∈ (feedback ℚ).liveBranches, Reading.rational.value {} b.weight = .ok 1 := by
    simpa [liveBranches_feedback] using Reading.rational.value_one {}
  exact determinant_exact (feedback_reachable ℚ) Reading.rational {} (fun _ => 1) hw { simplify := false } rfl

end Graph

end SignalFlow
