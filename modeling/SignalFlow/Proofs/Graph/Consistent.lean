import SignalFlow.Graph.Registry
import SignalFlow.Proofs.Graph.Change
import SignalFlow.Proofs.Graph.Live

/-!
# Live entities after a change

The look-ups after a change say what becomes of the entity at every place. From them follow the lists of the live
entities (`liveNodes_of_node?`, `liveBranches_of_branch?`): what a change does to an entity it does to the lists, whose
order stays. The numbers that a graph keeps beside its registries follow from the writes (`counts_connect`,
`counts_destroyBranch`).

A well-formed graph whose counts are right passes its own check (`check_eq_ok`).
-/

namespace SignalFlow

/-- If every place holds what `f` makes of the entry that was there, so does the list of the live entries. -/
theorem filterMap_id_of_bind {β : Type} {a a' : Array (Option β)} (f : β → Option β) (hsize : a'.size = a.size)
    (h : ∀ j : Nat, a'[j]?.join = a[j]?.join.bind f) :
    a'.toList.filterMap id = (a.toList.filterMap id).filterMap f := by
  have hmap : a'.toList = a.toList.map (·.bind f) := by
    refine List.ext_getElem (by simpa using hsize) fun j h₁ h₂ => ?_
    have hj := h j
    have hlt' : j < a'.size := by simpa using h₁
    have hlt : j < a.size := by omega
    rw [Array.getElem?_eq_getElem hlt', Array.getElem?_eq_getElem hlt, Option.join_some, Option.join_some] at hj
    simpa using hj
  rw [hmap, List.filterMap_map, List.filterMap_filterMap]
  rfl

/-- Where entries sit at the places of their keys, looking at a place is looking for its key. -/
theorem find?_filterMap_id {β : Type} {a : Array (Option β)} {key : β → Id}
    (h : ∀ (j : Nat) x, a[j]?.join = some x → (key x).index = j) (i : Id) :
    (a.toList.filterMap id).find? (key · = i) = a[i.index]?.join := by
  have hkey : ∀ {x}, x ∈ a.toList.filterMap id → a[(key x).index]?.join = some x := by
    intro x hx
    obtain ⟨j, hj⟩ := mem_filterMap_id_iff.mp hx
    rw [h j x hj, hj]
  cases hi : a[i.index]?.join with
  | none =>
    refine List.find?_eq_none.mpr fun x hx hkx => ?_
    have hplace := hkey hx
    rw [of_decide_eq_true hkx, hi] at hplace
    cases hplace
  | some x =>
    have hkx : key x = i := Id.index_inj.mp (h _ x hi)
    have hx : x ∈ a.toList.filterMap id := mem_filterMap_id_iff.mpr ⟨_, hi⟩
    obtain ⟨y, hy⟩ : ∃ y, (a.toList.filterMap id).find? (key · = i) = some y :=
      Option.isSome_iff_exists.mp (List.find?_isSome.mpr ⟨x, hx, by simpa using hkx⟩)
    have hplace := hkey (List.mem_of_find?_eq_some hy)
    have hky : key y = i := by simpa using List.find?_some hy
    rw [hky, hi] at hplace
    rw [hy, ← hplace]

/-- Of entries with different keys a single one has the key of a member. -/
theorem length_filter_ne {β : Type} {key : β → Id} {l : List β} (hl : (l.map key).Nodup) {x : β} (hx : x ∈ l) :
    (l.filter fun y => key y ≠ key x).length = l.length - 1 := by
  have hcount : (l.map key).count (key x) = 1 := List.count_eq_one_of_mem hl (List.mem_map_of_mem hx)
  have hone : l.countP (fun y => decide (key y = key x)) = 1 := by
    rw [← hcount, List.count, List.countP_map]
    rfl
  have hsplit := List.length_eq_countP_add_countP (fun y => decide (key y = key x)) (l := l)
  rw [hone] at hsplit
  rw [hsplit, ← List.countP_eq_length_filter]
  simp

namespace Graph

variable {α : Type} {g g' : Graph α}

theorem liveNodes_of_node? (f : Node → Option Node) (hsize : g'.nodes.size = g.nodes.size)
    (h : ∀ v, g'.node? v = (g.node? v).bind f) : g'.liveNodes = g.liveNodes.filterMap f :=
  filterMap_id_of_bind f hsize fun j => h ⟨j⟩

theorem liveNodes_of_map (f : Node → Node) (hsize : g'.nodes.size = g.nodes.size)
    (h : ∀ v, g'.node? v = (g.node? v).map f) : g'.liveNodes = g.liveNodes.map f := by
  rw [liveNodes_of_node? (some ∘ f) hsize fun v => by rw [h, Option.map_eq_bind], List.filterMap_eq_map]

theorem liveBranches_of_branch? (f : Branch α → Option (Branch α)) (hsize : g'.branches.size = g.branches.size)
    (h : ∀ i, g'.branch? i = (g.branch? i).bind f) : g'.liveBranches = g.liveBranches.filterMap f :=
  filterMap_id_of_bind f hsize fun j => h ⟨j⟩

theorem WellFormed.nodup_ids (hg : g.WellFormed) : (g.liveBranches.map Branch.id).Nodup :=
  nodup_of_oldest (List.pairwise_map.mpr hg.liveBranches_pairwise)

theorem WellFormed.find?_liveNodes (hg : g.WellFormed) (v : NodeId) : g.liveNodes.find? (·.id = v) = g.node? v :=
  find?_filterMap_id (fun j _ h => congrArg Id.index (hg.node_id (v := ⟨j⟩) h)) v

theorem WellFormed.find?_liveBranches (hg : g.WellFormed) (i : BranchId) :
    g.liveBranches.find? (·.id = i) = g.branch? i :=
  find?_filterMap_id (fun j _ h => congrArg Id.index (hg.branch_id (i := ⟨j⟩) h)) i

/-! ## Places and counts -/

/-- **The numbers that a graph keeps**: the places made so far in its registries, and the counts of live entities. -/
structure Counts where
  nodePlaces : Nat
  branchPlaces : Nat
  nodes : Nat
  branches : Nat

/-- The numbers that a graph keeps. -/
def counts (g : Graph α) : Counts := ⟨g.nodes.size, g.branches.size, g.nodeCount, g.branchCount⟩

@[simp] theorem counts_setNode (g : Graph α) (n : Node) : (g.setNode n).counts = g.counts := by
  simp [counts, setNode]

theorem counts_connect [Scalar α] {source dest : NodeId} {weight : Option (Expr α)} {i : BranchId}
    (h : g.connect source dest weight = .ok (i, g')) :
    g'.counts = ⟨g.nodes.size, g.branches.size + 1, g.nodeCount, g.branchCount + 1⟩ ∧
      g'.branches = g.branches.push
        (some ⟨⟨g.branches.size⟩, source, dest, weight.getD (Expr.literal Scalar.one)⟩) := by
  simp only [connect, bind, Except.bind] at h
  split at h
  · cases h
  · split at h
    · cases h
    · split at h
      · cases h
      · cases h
        exact ⟨by simp [counts, setNode], rfl⟩

theorem counts_destroyBranch {i : BranchId} {b : Branch α} (h : g.destroyBranch i = .ok (b, g')) :
    g'.counts = ⟨g.nodes.size, g.branches.size, g.nodeCount, g.branchCount - 1⟩ := by
  simp only [destroyBranch, bind, Except.bind] at h
  split at h
  · cases h
  · split at h
    · cases h
    · split at h
      · cases h
      · cases h
        simp [counts, setNode]

/-! ## The check -/

theorem firstFault_eq_ok {faults : List (Option GraphError)} (h : ∀ f ∈ faults, f = none) :
    firstFault faults = .ok () := by
  induction faults with
  | nil => rfl
  | cons f rest ih =>
    rw [h f List.mem_cons_self]
    exact ih fun f hf => h f (List.mem_cons_of_mem _ hf)

@[simp] theorem faultUnless_eq_none {holds : Bool} {e : GraphError} : faultUnless holds e = none ↔ holds = true := by
  cases holds <;> simp [faultUnless]

/-- An entry of a registry sits at the place at which it is listed. -/
theorem join_of_mem_zipIdx {β : Type} {a : Array (Option β)} {x : β} {j : Nat} (h : (some x, j) ∈ a.toList.zipIdx) :
    a[j]?.join = some x := by
  rw [List.mk_mem_zipIdx_iff_getElem?, Array.getElem?_toList] at h
  rw [h, Option.join_some]

/-- **A well-formed graph with right counts passes its check.** -/
theorem check_eq_ok (hg : g.WellFormed) (hnodes : g.liveNodes.length = g.nodeCount)
    (hbranches : g.liveBranches.length = g.branchCount) : g.check = .ok () := by
  have hplaces : ∀ f ∈ g.placeFaults, f = none := by
    intro f hf
    simp only [placeFaults, List.mem_append, List.mem_map, List.mem_cons, List.not_mem_nil, or_false] at hf
    rcases hf with (⟨⟨o, j⟩, hmem, rfl⟩ | ⟨⟨o, j⟩, hmem, rfl⟩) | rfl | rfl
    · cases o with
      | none => rfl
      | some n => simp [hg.node_id (v := ⟨j⟩) (join_of_mem_zipIdx hmem)]
    · cases o with
      | none => rfl
      | some b => simp [hg.branch_id (i := ⟨j⟩) (join_of_mem_zipIdx hmem)]
    · simp [hnodes]
    · simp [hbranches]
  have hbranch : ∀ b ∈ g.liveBranches, ∀ f ∈ g.branchFaults b, f = none := by
    intro b hb f hf
    have hlive := hg.mem_liveBranches.mp hb
    obtain ⟨s, hs⟩ := hg.source_live hlive
    obtain ⟨d, hd⟩ := hg.dest_live hlive
    have hout : s.outgoing.count b.id = 1 :=
      List.count_eq_one_of_mem (nodup_of_oldest (hg.outgoing hs).oldest)
        (((hg.outgoing hs).mem_iff _).mpr ⟨b, hlive, rfl⟩)
    have hin : d.incoming.count b.id = 1 :=
      List.count_eq_one_of_mem (nodup_of_oldest (hg.incoming hd).oldest)
        (((hg.incoming hd).mem_iff _).mpr ⟨b, hlive, rfl⟩)
    simp only [branchFaults, hs, hd, List.mem_cons, List.not_mem_nil, or_false] at hf
    rcases hf with rfl | rfl
    · simp [hout]
    · simp [hin]
  have hnode : ∀ n ∈ g.liveNodes, ∀ f ∈ g.nodeFaults n, f = none := by
    intro n hn f hf
    have hlive := hg.mem_liveNodes.mp hn
    simp only [nodeFaults, List.mem_append, List.mem_map] at hf
    rcases hf with ⟨i, hi, rfl⟩ | ⟨i, hi, rfl⟩
    · obtain ⟨b, hb, hs⟩ := ((hg.outgoing hlive).mem_iff i).mp hi
      simp [hb, hs]
    · obtain ⟨b, hb, hd⟩ := ((hg.incoming hlive).mem_iff i).mp hi
      simp [hb, hd]
  refine firstFault_eq_ok fun f hf => ?_
  simp only [List.mem_append, List.mem_flatMap] at hf
  rcases hf with (hf | ⟨b, hb, hf⟩) | ⟨n, hn, hf⟩
  · exact hplaces f hf
  · exact hbranch b hb f hf
  · exact hnode n hn f hf

end Graph

end SignalFlow
