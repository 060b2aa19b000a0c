import SignalFlow.Graph.Search
import SignalFlow.Proofs.Graph.Walk

/-!
# A search finds the walks listed

The search keeps frames and flags where `walks` recurses. `run_explore` says what becomes of a frame: when its branches
are all tried, the walks listed for them are found, and flags, walk and outer frames are as before. The flags are right
throughout because a node may be entered if and only if the recursion does not avoid it (`Avoids`), and leaving a node
undoes exactly what entering it did.

Hence `loops_eq` and `forwardPaths_eq`: both enumerations succeed on every well-formed graph and answer the walks
listed.
-/

namespace SignalFlow

namespace Search

open SignalFlow.Graph

variable {α : Type} {g : Graph α} {target : NodeId}

theorem run_of_nil {s : Search} (hframes : s.frames = []) : s.run g target = .ok s := by
  rw [run, dif_pos hframes]

theorem run_of_step {s s' : Search} (hframes : s.frames ≠ []) (h : s.step g target = .ok s') :
    s.run g target = s'.run g target := by
  rw [run, dif_neg hframes]
  split
  · next h' => cases h.symm.trans h'; rfl
  · next h' => cases h.symm.trans h'

theorem run_of_follow {s s' : Search} {node : NodeId} {i : BranchId} {untried : List BranchId} {outer : List Frame}
    (h : { s with frames := ⟨node, untried⟩ :: outer }.follow g target i = .ok s') :
    { s with frames := ⟨node, i :: untried⟩ :: outer }.run g target = s'.run g target :=
  run_of_step (List.cons_ne_nil _ _) h

theorem run_of_leave {s : Search} {node : NodeId} {f : Frame} {outer : List Frame} {n : Nat}
    (h : s.index.position node = .ok n) :
    { s with frames := ⟨node, []⟩ :: f :: outer }.run g target =
      ({ s with frames := f :: outer, walk := s.walk.tail }.setOnWalk n false).run g target := by
  refine run_of_step (List.cons_ne_nil _ _) ?_
  show (s.index.position node >>= fun _ => _) = _
  rw [h]
  rfl

/-- **The flags of a search that avoids some nodes**: those nodes may not be entered, and all other live nodes may. -/
structure Avoids (g : Graph α) (avoid : List NodeId) (s : Search) : Prop where
  index : s.index = Index.ofGraph g
  isFree_iff : ∀ {v n}, g.liveIds[n]? = some v → (s.isFree n = true ↔ v ∉ avoid)

namespace Avoids

variable {s s' : Search} {avoid : List NodeId}

/-- A live node has a number. -/
theorem exists_position (hg : g.WellFormed) (hs : Avoids g avoid s) {v : NodeId} (hv : v ∈ g.liveIds) :
    ∃ n, s.index.position v = .ok n ∧ g.liveIds[n]? = some v := by
  obtain ⟨n, hn⟩ := List.mem_iff_getElem?.mp hv
  exact ⟨n, hs.index ▸ (Index.position_eq_ok_iff hg).mpr hn, hn⟩

/-- Only the flags matter. -/
theorem of_flags_eq (hs : Avoids g avoid s) (hindex : s'.index = s.index) (honWalk : s'.onWalk = s.onWalk)
    (hblocked : s'.blocked = s.blocked) : Avoids g avoid s' := by
  refine ⟨hindex.trans hs.index, fun hv => ?_⟩
  rw [← hs.isFree_iff hv, isFree, isFree, honWalk, hblocked]

/-- When one node less may be entered, one more is avoided. -/
theorem cons (hg : g.WellFormed) (hs : Avoids g avoid s) {v : NodeId} {n : Nat} (hn : g.liveIds[n]? = some v)
    (hindex : s'.index = s.index) (hfree : ∀ k, s'.isFree k = true ↔ s.isFree k = true ∧ k ≠ n) :
    Avoids g (v :: avoid) s' := by
  refine ⟨hindex.trans hs.index, fun {u k} hu => ?_⟩
  have hne : k ≠ n ↔ u ≠ v := by
    constructor
    · rintro hkn rfl
      have hlt := (List.getElem?_eq_some_iff.mp hn).1
      exact hkn ((List.getElem?_inj hlt (nodup_of_oldest hg.oldest_liveIds)).mp (hn.trans hu.symm)).symm
    · rintro huv rfl
      exact huv (Option.some.inj (hu.symm.trans hn))
  rw [hfree, hs.isFree_iff hu, hne, List.mem_cons, not_or, and_comm]

/-- A flag that is set. -/
theorem getElem?_set_eq_false {flags : Array Bool} {n k : Nat} :
    (flags.setIfInBounds n true)[k]? = some false ↔ flags[k]? = some false ∧ k ≠ n := by
  rw [Array.getElem?_setIfInBounds]
  by_cases hnk : n = k
  · subst hnk
    by_cases hn : n < flags.size <;> simp [hn]
  · simp [hnk, Ne.symm hnk]

/-- A node on the walk is avoided. -/
theorem setOnWalk (hg : g.WellFormed) (hs : Avoids g avoid s) {v : NodeId} {n : Nat} (hn : g.liveIds[n]? = some v) :
    Avoids g (v :: avoid) (s.setOnWalk n true) := by
  refine hs.cons hg hn rfl fun k => ?_
  rw [Search.isFree_iff, Search.isFree_iff, and_assoc]
  exact and_congr_right fun _ => getElem?_set_eq_false

/-- A blocked node is avoided. -/
theorem block (hg : g.WellFormed) (hs : Avoids g avoid s) {v : NodeId} {n : Nat} (hn : g.liveIds[n]? = some v) :
    Avoids g (v :: avoid) (s.block n) := by
  refine hs.cons hg hn rfl fun k => ?_
  rw [Search.isFree_iff, Search.isFree_iff, and_right_comm]
  exact and_congr_left fun _ => getElem?_set_eq_false

end Avoids

/-- Taking a node off the walk undoes putting it there. -/
theorem setOnWalk_setOnWalk {s : Search} {n : Nat} (h : s.isFree n = true) :
    (s.setOnWalk n true).setOnWalk n false = s := by
  obtain ⟨hlt, hoff⟩ := Array.getElem?_eq_some_iff.mp (isFree_iff.mp h).2
  have hflags : (s.onWalk.setIfInBounds n true).setIfInBounds n false = s.onWalk := by
    rw [Array.setIfInBounds_setIfInBounds, Array.setIfInBounds, dif_pos hlt, ← hoff, Array.set_getElem_self]
  simp only [setOnWalk, hflags]

/-! ## One frame -/

/-- A search with other frames that has found the walk it is on continued by each of some walks. -/
def explored (s : Search) (frames : List Frame) (ws : List (List (Branch α))) : Search :=
  { s with frames, found := s.found ++ (ws.map fun bs => Path.mk (s.walk.reverse ++ bs.map Branch.id)).toArray }

theorem explored_nil (s : Search) (frames : List Frame) :
    s.explored frames ([] : List (List (Branch α))) = { s with frames } := by
  simp [explored]

theorem explored_append (s : Search) (frames frames' : List Frame) (ws ws' : List (List (Branch α))) :
    (s.explored frames ws).explored frames' ws' = s.explored frames' (ws ++ ws') := by
  simp [explored]

/-- Leaving a node undoes what entering it did; what was found from it is found with the branch to it in front. -/
theorem leave_entered {s : Search} {n : Nat} (hfree : s.isFree n = true) (b : Branch α) (frames : List Frame)
    (ws : List (List (Branch α))) :
    { ({ s with walk := b.id :: s.walk }.setOnWalk n true).explored [] ws with frames, walk := s.walk }.setOnWalk n
        false = s.explored frames (ws.map (b :: ·)) := by
  have hflags := congrArg Search.onWalk (setOnWalk_setOnWalk hfree)
  simp only [Search.setOnWalk] at hflags
  simp [Search.setOnWalk, explored, hflags, Function.comp_def]

/-- **What becomes of a frame**: when all its branches are tried, the walks listed for them are found, and everything
else is as before. -/
theorem run_explore (hg : g.WellFormed) (target : NodeId) (untried : List (Branch α)) (avoid : List NodeId)
    (hlive : ∀ b ∈ untried, b ∈ g.liveBranches) (s : Search) (hs : Avoids g avoid s) (node : NodeId)
    (outer : List Frame) :
    { s with frames := ⟨node, untried.map Branch.id⟩ :: outer }.run g target =
      (s.explored (⟨node, []⟩ :: outer) (g.walks target untried avoid)).run g target := by
  refine walks_induction (P := fun untried avoid => ∀ s : Search, Avoids g avoid s → ∀ node outer,
    { s with frames := ⟨node, untried.map Branch.id⟩ :: outer }.run g target =
      (s.explored (⟨node, []⟩ :: outer) (g.walks target untried avoid)).run g target)
    hg target ?nil ?pass ?stop ?enter untried avoid hlive s hs node outer
  case nil =>
    intro avoid s _ node outer
    rw [walks_nil, explored_nil, List.map_nil]
  case pass =>
    intro b rest avoid hb h ih s hs node outer
    obtain ⟨n, hn, hv⟩ := hs.exists_position hg (hg.dest_mem_liveIds hb)
    have hfree : s.isFree n = false := by
      rw [← Bool.not_eq_true, hs.isFree_iff hv]
      exact not_not_intro h
    have hfound := branch_eq_ok_iff.mpr (hg.mem_liveBranches.mp hb)
    rw [List.map_cons, run_of_follow (follow_of_not_free hfound hn hfree), ih s hs, walks_cons_of_mem h]
  case stop =>
    intro b rest avoid hb h htarget ih s hs node outer
    obtain ⟨n, hn, hv⟩ := hs.exists_position hg (hg.dest_mem_liveIds hb)
    have hfree : s.isFree n = true := (hs.isFree_iff hv).mpr h
    have hfound := branch_eq_ok_iff.mpr (hg.mem_liveBranches.mp hb)
    rw [List.map_cons, run_of_follow (follow_of_target hfound hn hfree htarget),
      walks_cons_of_eq (hg.dest_mem_liveIds hb) h htarget]
    have hpushed := ih { s with found := s.found.push ⟨(b.id :: s.walk).reverse⟩ } (hs.of_flags_eq rfl rfl rfl) node
      outer
    refine hpushed.trans ?_
    congr 1
    simp [explored]
  case enter =>
    intro b rest avoid hb h htarget ih₁ ih₂ s hs node outer
    obtain ⟨n, hn, hv⟩ := hs.exists_position hg (hg.dest_mem_liveIds hb)
    have hfree : s.isFree n = true := (hs.isFree_iff hv).mpr h
    have hfound := branch_eq_ok_iff.mpr (hg.mem_liveBranches.mp hb)
    rw [List.map_cons, run_of_follow (follow_of_free hfound hn hfree htarget),
      walks_cons_of_ne (hg.dest_mem_liveIds hb) h htarget]
    let ws := g.walks target (g.leaving b.dest) (b.dest :: avoid)
    let inner : Search := { s with walk := b.id :: s.walk }.setOnWalk n true
    have hlonger : Avoids g avoid { s with walk := b.id :: s.walk } := hs.of_flags_eq rfl rfl rfl
    have hinner : Avoids g (b.dest :: avoid) inner := hlonger.setOnWalk hg hv
    -- The inner frame is emptied, the node left, and the search goes on with the branches after `b`.
    have h₁ := ih₁ inner hinner b.dest (⟨node, rest.map Branch.id⟩ :: outer)
    rw [← hg.outgoing_eq] at h₁
    refine h₁.trans ((run_of_leave (s := inner.explored [] ws) hn).trans ?_)
    have hleave := leave_entered hfree b (⟨node, rest.map Branch.id⟩ :: outer) ws
    refine (congrArg (run g target) hleave).trans ?_
    rw [← explored_append _ []]
    exact ih₂ (s.explored [] (ws.map (b :: ·))) (hs.of_flags_eq rfl rfl rfl) node outer

/-! ## Whole searches -/

/-- A search from a node without other frames answers the walks listed from it. -/
theorem run_enter (hg : g.WellFormed) {s : Search} {avoid : List NodeId} (hs : Avoids g avoid s)
    (hframes : s.frames = []) (start target : NodeId) :
    (s.enter g start).run g target = .ok (s.explored [] (g.walks target (g.leaving start) avoid)) := by
  have h := run_explore hg target (g.leaving start) avoid (fun b hb => (mem_leaving.mp hb).1) s hs start []
  have hlast : (s.explored [⟨start, []⟩] (g.walks target (g.leaving start) avoid)).step g target =
      .ok (s.explored [] (g.walks target (g.leaving start) avoid)) := rfl
  rw [enter, hframes, hg.outgoing_eq, h, run_of_step (List.cons_ne_nil _ _) hlast, run_of_nil rfl]

theorem avoids_ofGraph (g : Graph α) : Avoids g [] (ofGraph g) := by
  refine ⟨rfl, fun {v n} hv => ?_⟩
  have hlt := (List.getElem?_eq_some_iff.mp hv).1
  simp [ofGraph, isFree, Index.size, Index.ofGraph, hlt]

end Search

namespace Graph

variable {α : Type} {g : Graph α}

/-- The walks that loop, from each anchor those that avoid the earlier anchors. -/
def loopWalks (g : Graph α) (earlier : List NodeId) : List NodeId → List (List (Branch α))
  | [] => []
  | anchor :: rest => g.walks anchor (g.leaving anchor) earlier ++ g.loopWalks (anchor :: earlier) rest

/-- The path of a walk. -/
def pathOf (bs : List (Branch α)) : Path := ⟨bs.map Branch.id⟩

end Graph

namespace Search

open SignalFlow.Graph

variable {α : Type} {g : Graph α}

/-- The anchors not searched from yet are numbered from `n` on. -/
theorem runAnchors_eq (hg : g.WellFormed) {s : Search} {earlier anchors : List NodeId} (hs : Avoids g earlier s)
    (hframes : s.frames = []) (hwalk : s.walk = []) {n : Nat} (hn : g.liveIds.drop n = anchors) :
    ∃ s', s.runAnchors g n anchors = .ok s' ∧
      s'.found = s.found ++ ((g.loopWalks earlier anchors).map pathOf).toArray := by
  induction anchors generalizing s earlier n with
  | nil => exact ⟨s, rfl, by simp [loopWalks]⟩
  | cons anchor rest ih =>
    have hanchor : g.liveIds[n]? = some anchor := by
      rw [← List.head?_drop, hn]
      rfl
    have hrest : g.liveIds.drop (n + 1) = rest := by
      rw [← List.tail_drop, hn]
      rfl
    let searched : Search := s.explored [] (g.walks anchor (g.leaving anchor) earlier)
    have hsearched : Avoids g earlier searched := hs.of_flags_eq rfl rfl rfl
    obtain ⟨s', hs', hfound⟩ := ih (s := searched.block n) (hsearched.block hg hanchor) rfl hwalk hrest
    refine ⟨s', ?_, ?_⟩
    · rw [runAnchors, run_enter hg hs hframes]
      exact hs'
    · rw [hfound, loopWalks, List.map_append, ← List.append_toArray, ← Array.append_assoc]
      simp only [searched, Search.block, explored, hwalk, List.reverse_nil, List.nil_append]
      rfl

end Search

namespace Graph

variable {α : Type} {g : Graph α}

/-- **The enumeration of loops succeeds** and answers the walks that loop, anchor by anchor. -/
theorem loops_eq (hg : g.WellFormed) : g.loops = .ok ((g.loopWalks [] g.liveIds).map pathOf) := by
  obtain ⟨s, hs, hfound⟩ := Search.runAnchors_eq hg (Search.avoids_ofGraph g) rfl rfl (List.drop_zero (l := g.liveIds))
  rw [loops, show (Search.ofGraph g).index.ids.toList = g.liveIds from rfl]
  show ((Search.ofGraph g).runAnchors g 0 g.liveIds >>= fun _ => _) = _
  rw [hs]
  show Except.ok s.found.toList = _
  rw [hfound]
  simp [Search.ofGraph]

/-- **The enumeration of forward paths succeeds** between two live nodes, and answers the walks that enter no node twice
and do not come back to the input. -/
theorem forwardPaths_eq (hg : g.WellFormed) {input output : NodeId} (hi : input ∈ g.liveIds) (ho : output ∈ g.liveIds)
    (hne : input ≠ output) :
    g.forwardPaths input output = .ok ((g.walks output (g.leaving input) [input]).map pathOf) := by
  obtain ⟨n, hn⟩ := hg.mem_liveIds.mp hi
  obtain ⟨m, hm⟩ := hg.mem_liveIds.mp ho
  obtain ⟨k, hk, hv⟩ := (Search.avoids_ofGraph g).exists_position hg hi
  have havoids := (Search.avoids_ofGraph g).setOnWalk hg hv
  unfold forwardPaths
  rw [node_eq_ok_iff.mpr hn, node_eq_ok_iff.mpr hm]
  show (if input = output then _ else _) = _
  rw [if_neg hne]
  show ((Search.ofGraph g).index.position input >>= fun _ => _) = _
  rw [hk]
  show ((((Search.ofGraph g).setOnWalk k true).enter g input).run g output >>= fun _ => _) = _
  rw [Search.run_enter hg havoids rfl]
  show Except.ok (Array.toList _) = _
  simp [Search.explored, Search.setOnWalk, Search.ofGraph, pathOf]

end Graph

end SignalFlow
