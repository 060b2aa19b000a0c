import SignalFlow.Proofs.Graph.Without
import SignalFlow.Proofs.Mason.Transfer

/-!
# Cofactors are determinants

The cofactor of a path is the determinant over the loops that share no node with it. It is the determinant of what is
left of the graph when the nodes of the path are destroyed, and not only in value: the two are the same tree
(`solve_cofactors`). A determinant depends on the loops it is over and their order, not on their indices
(`determinantOf_ofWalks`), and what is left of the graph lists its loops in the order in which the graph lists them
(`Without.loopWalks_eq`).
-/

namespace SignalFlow

open SignalFlow.Graph (Branch Walk pathOf meet keepsOff)

/-! ## Determinants and indices -/

namespace LoopTable

variable {α : Type}

/-- The sets of members under other names. -/
theorem apart_map {β γ : Type} (touch : γ → γ → Bool) (f : β → γ) (ms : List β) (k : Nat) :
    apart touch (ms.map f) k = (apart (fun x y => touch (f x) (f y)) ms k).map (List.map f) := by
  induction ms generalizing k with
  | nil => cases k <;> rfl
  | cons m ms ih =>
    cases k with
    | zero =>
      rw [apart_zero, apart_zero]
      rfl
    | succ k =>
      rw [List.map_cons, apart_cons_succ, apart_cons_succ, ih k, ih (k + 1), List.map_append, List.filter_map,
        List.map_map, List.map_map]
      simp only [Function.comp_def, List.all_map, List.map_cons]

/-- Which loops avoid some nodes does not depend on their order. -/
theorem avoiding_perm (table : LoopTable α) {xs ys : List NodeId} (h : xs.Perm ys) :
    table.avoiding xs = table.avoiding ys := by
  have hcontains : xs.contains = ys.contains := funext fun v => by
    rw [Bool.eq_iff_iff, List.contains_iff_mem, List.contains_iff_mem, h.mem_iff]
  simp only [avoiding, Path.sharesNode, hcontains]

variable [Scalar α] {table table' : LoopTable α}

/-- Levels of sets with the same gains have the same sum. -/
theorem levelSum?_congr {level level' : List (List Nat)}
    (h : level.map (List.map table.gainOf) = level'.map (List.map table'.gainOf)) :
    table.levelSum? level = table'.levelSum? level' := by
  have hproduct : ∀ {sets sets' : List (List Nat)},
      sets.map (List.map table.gainOf) = sets'.map (List.map table'.gainOf) →
      sets.map table.product = sets'.map table'.product := by
    intro sets sets' hsets
    have hmap := congrArg (List.map Path.product) hsets
    rwa [List.map_map, List.map_map] at hmap
  cases level with
  | nil =>
    obtain rfl := List.map_eq_nil_iff.mp h.symm
    rfl
  | cons set rest =>
    cases level' with
    | nil => cases h
    | cons set' rest' =>
      obtain ⟨hset, hrest⟩ := List.cons.inj (hproduct h)
      rw [levelSum?, levelSum?, hset, hrest]

/-- **What levels add to a determinant** depends on the gains of the loops of their sets. -/
theorem addLevels_congr (config : Option SimplifyConfig) (odd : Bool) (det : Expr α)
    {levels levels' : List (List (List Nat))}
    (h : levels.map (List.map (List.map table.gainOf)) = levels'.map (List.map (List.map table'.gainOf))) :
    table.addLevels config odd det levels = table'.addLevels config odd det levels' := by
  induction levels generalizing levels' odd det with
  | nil =>
    obtain rfl := List.map_eq_nil_iff.mp h.symm
    rfl
  | cons level rest ih =>
    cases levels' with
    | nil => cases h
    | cons level' rest' =>
      obtain ⟨hlevel, hrest⟩ := List.cons.inj h
      rw [addLevels, addLevels, levelSum?_congr hlevel]
      cases table'.levelSum? level' with
      | none => rfl
      | some sum => exact ih _ _ hrest

/-- The sets of loops that do not touch, as lists of loops. -/
theorem map_nonTouchingSets (ws : List (List (Branch α))) {members : List Nat} (hmembers : members.Pairwise (· < ·)) :
    ((ofWalks ws).nonTouchingSets members).map (List.map (List.map (loopAt ws))) =
      ((List.range' 1 members.length).map (apart meet (members.map (loopAt ws)))).takeWhile (!·.isEmpty) := by
  have htouch : (ofWalks ws).touch = fun i j => meet (loopAt ws i) (loopAt ws j) := funext₂ (touch_ofWalks ws)
  have hlevel : ∀ k, apart meet (members.map (loopAt ws)) k =
      (apart (ofWalks ws).touch members k).map (List.map (loopAt ws)) := fun k => by rw [apart_map, htouch]
  have hempty : (fun level : List (List (List (Branch α))) => !level.isEmpty) ∘ List.map (List.map (loopAt ws)) =
      fun level => !level.isEmpty := by
    funext level
    cases level <;> rfl
  rw [nonTouchingSets_eq hmembers, ← hempty, ← List.takeWhile_map, List.map_map]
  exact congrArg (List.takeWhile _) (List.map_congr_left fun k _ => (hlevel k).symm)

/-- **A determinant depends on the loops it is over**, in their order, not on their indices. -/
theorem determinantOf_ofWalks {ws ws' : List (List (Branch α))} {members members' : List Nat}
    (hmembers : members.Pairwise (· < ·)) (hmembers' : members'.Pairwise (· < ·))
    (h : members.map (loopAt ws) = members'.map (loopAt ws')) (config : Option SimplifyConfig) :
    (ofWalks ws).determinantOf members config = (ofWalks ws').determinantOf members' config := by
  have hlength : members.length = members'.length := by simpa using congrArg List.length h
  have hsets : ((ofWalks ws).nonTouchingSets members).map (List.map (List.map (loopAt ws))) =
      ((ofWalks ws').nonTouchingSets members').map (List.map (List.map (loopAt ws'))) := by
    rw [map_nonTouchingSets ws hmembers, map_nonTouchingSets ws' hmembers', hlength, h]
  refine addLevels_congr config true _ ?_
  have hgain : ∀ ws : List (List (Branch α)), (ofWalks ws).gainOf =
      (fun bs : List (Branch α) => Path.product (bs.map Branch.weight)) ∘ loopAt ws := fun ws =>
    funext (gainOf_ofWalks ws)
  have hgains := congrArg (List.map (List.map (List.map fun bs : List (Branch α) =>
    Path.product (bs.map Branch.weight)))) hsets
  simp only [List.map_map, Function.comp_def] at hgains
  simpa only [hgain, Function.comp_def] using hgains

end LoopTable

namespace Graph

variable {α : Type} [Scalar α] {g g' : Graph α}

/-! ## Cofactors -/

/-- The cofactors of some paths are the determinants over the loops that share no node with them. -/
theorem addPaths_cofactors (hg : g.WellFormed) (config : SolverConfig) {ps : List (List (Branch α))}
    (hps : ∀ bs ∈ ps, ∀ b ∈ bs, b ∈ g.liveBranches) {cache : CofactorCache α}
    (hcache : CofactorCache.Right g.loopTable config cache) (numerator : Option (Expr α)) :
    ∃ result, g.addPaths g.loopTable config cache numerator (ps.map pathOf) =
      .ok (result, ps.map fun bs =>
        g.loopTable.determinantOf (g.loopTable.avoiding (Path.nodesOf bs)) config.simplifyConfig) := by
  induction ps generalizing cache numerator with
  | nil => exact ⟨numerator, rfl⟩
  | cons bs ps ih =>
    obtain ⟨hbs, hps⟩ := List.forall_mem_cons.mp hps
    obtain ⟨cache', hcached, hcache'⟩ := cofactorOf_of_right hcache (g.loopTable.avoiding (Path.nodesOf bs))
    obtain ⟨result, hok⟩ := ih hps hcache' (some (addTerm config numerator (pathTerm
      (Path.product (bs.map Branch.weight))
      (g.loopTable.determinantOf (g.loopTable.avoiding (Path.nodesOf bs)) config.simplifyConfig))))
    refine ⟨result, ?_⟩
    rw [List.map_cons, addPaths, Path.nodes_pathOf hg hbs, Path.gain_pathOf hg hbs]
    simp only [bind, Except.bind, hcached, hok]
    rfl

/-- **The determinant of what is left** of a graph is the determinant over the loops that avoid the nodes. -/
theorem Without.determinant_eq {nodes : List NodeId} (h : g.Without nodes g') (hg : g.WellFormed)
    (config : SolverConfig) : ∃ loops, g'.loops = .ok loops ∧ g'.determinant loops config =
      .ok (g.loopTable.determinantOf (g.loopTable.avoiding nodes) config.simplifyConfig) := by
  refine ⟨_, loops_eq h.wellFormed, ?_⟩
  unfold determinant
  rw [ofLoops_loops h.wellFormed]
  refine congrArg Except.ok (LoopTable.determinantOf_ofWalks List.pairwise_lt_range
    (g.loopTable.avoiding_pairwise nodes) ?_ config.simplifyConfig)
  have hkeeps : (fun bs : List (Branch α) => bs.all (·.source ∉ nodes)) = keepsOff nodes := by
    funext bs
    simp [keepsOff, Path.sharesNode, List.all_eq_not_any_not, Function.comp_def]
  have hall := LoopTable.map_loopAt_all (g'.loopWalks [] g'.liveIds)
  have havoiding := LoopTable.map_loopAt_avoiding (g.loopWalks [] g.liveIds) nodes
  rw [← hkeeps, ← h.loopWalks_eq hg] at havoiding
  exact hall.trans havoiding.symm

/-- The paths of a solution are those that it was made of. -/
theorem paths_of_mason {config : SolverConfig} {ps loops : List Path} {s : Solution α}
    (h : g.mason ps loops config = .ok s) : s.paths = ps := by
  unfold mason at h
  cases htable : LoopTable.ofLoops g loops with
  | error e =>
    rw [htable] at h
    cases h
  | ok table =>
    rw [htable] at h
    cases hadd : g.addPaths table config [] none ps with
    | error e =>
      simp only [bind, Except.bind, hadd] at h
      cases h
    | ok result =>
      simp only [bind, Except.bind, hadd] at h
      cases h
      rfl

/-- **A cofactor is the determinant of the graph without its path**, the same tree. There is one for each forward path:
in whatever order the nodes of the path are destroyed, what is left has loops, and a determinant over them, which is
the cofactor. -/
theorem solve_cofactors (hg : g.Reachable) {config : SolverConfig} (hmax : g.nodeCount ≤ config.maxNodes)
    {input output : NodeId} (hi : input ∈ g.liveIds) (ho : output ∈ g.liveIds) (hne : input ≠ output) :
    ∃ s, g.solve input output config = .ok s ∧ g.forwardPaths input output = .ok s.paths ∧
      s.cofactors.length = s.paths.length ∧
      ∀ (k : Nat) (path : Path) (cofactor : Expr α), s.paths[k]? = some path → s.cofactors[k]? = some cofactor →
        ∃ nodes, path.nodes g = .ok nodes ∧ ∀ order : List NodeId, order.Perm nodes →
          ∃ g' loops, g.destroyNodes order = .ok g' ∧ g'.loops = .ok loops ∧
            g'.determinant loops config = .ok cofactor := by
  have hwf := hg.wellFormed
  have hsimple : ∀ bs ∈ g.walks output (g.leaving input) [input],
      Walk g input bs output ∧ (input :: bs.map Branch.dest).Nodup := fun bs hbs =>
    simpleWalk_singleton_iff.mp ((mem_walks_leaving_iff hwf _ _ _ bs).mp hbs).2
  have hlive : ∀ bs ∈ g.walks output (g.leaving input) [input], ∀ b ∈ bs, b ∈ g.liveBranches :=
    fun bs hbs b hb => (hsimple bs hbs).1.mem_liveBranches hb
  have hcache : CofactorCache.Right g.loopTable config [] := fun _ _ h => nomatch h
  obtain ⟨result, hok⟩ := addPaths_cofactors hwf config hlive hcache none
  obtain ⟨s, hs, -, -, hcofactors, -⟩ := mason_eq hwf hok
  have hpaths := paths_of_mason hs
  refine ⟨s, ?_, ?_, ?_, fun k path cofactor hpath hcofactor => ?_⟩
  · rw [solve_eq hwf hmax hi ho hne, hs]
    rfl
  · rw [hpaths]
    exact forwardPaths_eq hwf hi ho hne
  · rw [hpaths, hcofactors, List.length_map, List.length_map]
  · rw [hpaths, List.getElem?_map, Option.map_eq_some_iff] at hpath
    obtain ⟨bs, hk, rfl⟩ := hpath
    rw [hcofactors, List.getElem?_map, hk, Option.map_some, Option.some.injEq] at hcofactor
    subst hcofactor
    have hbs := List.mem_of_getElem? hk
    obtain ⟨hwalk, hnodup⟩ := hsimple bs hbs
    have hnodes : Path.nodesOf bs = input :: bs.map Branch.dest := Path.nodesOf_walk hwalk hne
    refine ⟨_, Path.nodes_pathOf hwf (hlive bs hbs), fun order horder => ?_⟩
    rw [← hnodes] at hnodup
    have hmem : ∀ v ∈ order, v ∈ g.liveIds := by
      intro v hv
      rw [horder.mem_iff, hnodes] at hv
      rcases List.mem_cons.mp hv with rfl | hv
      · exact hi
      · obtain ⟨b, hb, rfl⟩ := List.mem_map.mp hv
        exact hwf.dest_mem_liveIds (hlive bs hbs b hb)
    obtain ⟨g', hg', hwithout⟩ := hwf.destroyNodes_ok (horder.nodup_iff.mpr hnodup) hmem
    obtain ⟨loops, hloops, hdet⟩ := hwithout.determinant_eq hwf config
    rw [LoopTable.avoiding_perm g.loopTable horder] at hdet
    exact ⟨g', loops, hg', hloops, hdet⟩

/-- What is left of `aside` without the two nodes of its path. -/
def asideLoop : Graph Double where
  nodes := #[none, none, some ⟨⟨2⟩, "aside", [⟨1⟩], [⟨1⟩]⟩]
  branches := #[none, some ⟨⟨1⟩, ⟨2⟩, ⟨2⟩, Expr.var "b"⟩]
  nodeCount := 1
  branchCount := 1

theorem destroyNodes_aside : (aside Double).destroyNodes [⟨0⟩, ⟨1⟩] = .ok asideLoop := by
  rw [aside_eq]
  rfl

theorem loops_asideLoop : asideLoop.loops = .ok [⟨[⟨1⟩]⟩] := by
  obtain ⟨g', hg', hwithout⟩ : ∃ g', (aside Double).destroyNodes [⟨0⟩, ⟨1⟩] = .ok g' ∧
      (aside Double).Without [⟨0⟩, ⟨1⟩] g' :=
    (aside_reachable Double).wellFormed.destroyNodes_ok (by decide) (by simp [liveIds_aside])
  obtain rfl : asideLoop = g' := Except.ok.inj (destroyNodes_aside.symm.trans hg')
  have hlive : asideLoop.liveIds = [⟨2⟩] := by rfl
  have hbranches : asideLoop.liveBranches = [⟨⟨1⟩, ⟨2⟩, ⟨2⟩, Expr.var "b"⟩] := by rfl
  rw [loops_eq hwithout.wellFormed]
  simp [loopWalks, walks, leaving, hlive, hbranches, pathOf]

/-- Without the two nodes of the only path a loop is left, and the cofactor is 1 less the weight of the loop. -/
theorem solve_cofactors_aside :
    let det : Expr Double := .binary .sub (.literal Scalar.one) (.var "b")
    ∃ s, (aside Double).solve ⟨0⟩ ⟨1⟩ { simplify := false } = .ok s ∧ s.paths = [⟨[⟨0⟩]⟩] ∧
      (aside Double).destroyNodes [⟨0⟩, ⟨1⟩] = .ok asideLoop ∧ asideLoop.loops = .ok [⟨[⟨1⟩]⟩] ∧
      asideLoop.determinant [⟨[⟨1⟩]⟩] { simplify := false } = .ok det ∧ s.cofactors = [det] := by
  intro det
  have hmax : (aside Double).nodeCount ≤ ({ simplify := false } : SolverConfig).maxNodes := by
    rw [aside_eq]
    decide
  have hi : ⟨0⟩ ∈ (aside Double).liveIds := by simp [liveIds_aside]
  have ho : ⟨1⟩ ∈ (aside Double).liveIds := by simp [liveIds_aside]
  obtain ⟨s, hs, hforward, hlength, hcofactors⟩ := solve_cofactors (aside_reachable Double) hmax hi ho (by decide)
  have hpaths : s.paths = [⟨[⟨0⟩]⟩] := Except.ok.inj (hforward.symm.trans (forwardPaths_aside Double))
  rw [hpaths] at hlength hcofactors
  obtain ⟨cofactor, hcofactor⟩ := List.length_eq_one_iff.mp hlength
  rw [hcofactor] at hcofactors
  obtain ⟨nodes, hnodes, hdestroy⟩ := hcofactors 0 _ _ rfl rfl
  have hends : Path.nodes (aside Double) ⟨[⟨0⟩]⟩ = .ok [⟨0⟩, ⟨1⟩] := by
    rw [aside_eq]
    rfl
  obtain rfl : nodes = [⟨0⟩, ⟨1⟩] := Except.ok.inj (hnodes.symm.trans hends)
  obtain ⟨g', loops, hg', hloops, hdet⟩ := hdestroy _ (List.Perm.refl _)
  obtain rfl : asideLoop = g' := Except.ok.inj (destroyNodes_aside.symm.trans hg')
  obtain rfl : [⟨[⟨1⟩]⟩] = loops := Except.ok.inj (loops_asideLoop.symm.trans hloops)
  have hdeterminant : asideLoop.determinant [⟨[⟨1⟩]⟩] { simplify := false } = .ok det := by rfl
  refine ⟨s, hs, hpaths, destroyNodes_aside, loops_asideLoop, hdeterminant, ?_⟩
  rw [hcofactor, Except.ok.inj (hdet.symm.trans hdeterminant)]

end Graph

end SignalFlow
