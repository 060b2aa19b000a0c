import Mathlib.Data.List.Sort
import SignalFlow.Graph.Basic

/-!
# Well-formed graphs

`WellFormed` says that the registries of a graph agree: entities sit at the places of their handles, the ends of a live
branch are live, and every node lists exactly the live branches that leave and enter it, oldest first.

`WellFormed` speaks of the look-ups `node?` and `branch?` only, so a change is described by what every look-up gives
after it. Changing the lists at the two ends of a branch is shared by adding and removing one (`setEnds`).
-/

namespace SignalFlow

theorem Id.index_injective : Function.Injective Id.index := fun ⟨_⟩ ⟨_⟩ h => congrArg Id.mk h

theorem Id.index_inj {i j : Id} : i.index = j.index ↔ i = j := Id.index_injective.eq_iff

/-- Handles in the order of creation. -/
abbrev Oldest (l : List Id) : Prop := l.Pairwise (·.index < ·.index)

theorem nodup_of_oldest {ids : List Id} (h : Oldest ids) : ids.Nodup :=
  List.Pairwise.imp (fun hlt heq => Nat.ne_of_lt hlt (congrArg Id.index heq)) h

/-! ## Places -/

section Places

variable {β : Type}

theorem join_getElem?_setIfInBounds (a : Array (Option β)) (k j : Nat) (x : Option β) :
    (a.setIfInBounds k x)[j]?.join = if j = k ∧ k < a.size then x else a[j]?.join := by
  rw [Array.getElem?_setIfInBounds]
  by_cases hjk : j = k
  · subst hjk
    by_cases hj : j < a.size
    · simp [hj]
    · simp [hj]
  · simp [hjk, Ne.symm hjk]

theorem join_getElem?_push (a : Array (Option β)) (j : Nat) (x : Option β) :
    (a.push x)[j]?.join = if j = a.size then x else a[j]?.join := by
  rw [Array.getElem?_push]
  split <;> simp

theorem lt_size_of_join {a : Array (Option β)} {j : Nat} {x : β} (h : a[j]?.join = some x) : j < a.size :=
  (Array.getElem?_eq_some_iff.mp (Option.join_eq_some_iff.mp h)).1

/-- An entry is live if and only if it sits somewhere. -/
theorem mem_filterMap_id_iff {a : Array (Option β)} {x : β} :
    x ∈ a.toList.filterMap id ↔ ∃ j : Nat, a[j]?.join = some x := by
  simp only [List.mem_filterMap, id, exists_eq_right, Array.mem_toList_iff, Array.mem_iff_getElem?,
    Option.join_eq_some_iff]

/-- Entries that sit at the place of their key are listed in the order of their keys. -/
theorem pairwise_filterMap_id {a : Array (Option β)} {key : β → Nat}
    (h : ∀ (j : Nat) x, a[j]?.join = some x → key x = j) :
    (a.toList.filterMap id).Pairwise (key · < key ·) := by
  refine List.pairwise_filterMap.mpr (List.pairwise_iff_getElem.mpr fun i j hi hj hij x hx y hy => ?_)
  have hplace : ∀ {k : Nat} (hk : k < a.toList.length) {z : β}, id a.toList[k] = some z → key z = k :=
    fun hk z hz => h _ z
      (Option.join_eq_some_iff.mpr (Array.getElem?_eq_some_iff.mpr ⟨by simpa using hk, by simpa using hz⟩))
  rw [hplace hi hx, hplace hj hy]
  exact hij

end Places

namespace Graph

variable {α : Type}

/-! ## Look-ups after a change -/

theorem node?_setNode (g : Graph α) (n : Node) (j : NodeId) :
    (g.setNode n).node? j = if j = n.id ∧ n.id.index < g.nodes.size then some n else g.node? j := by
  simp only [node?, setNode, join_getElem?_setIfInBounds, Id.index_inj]

@[simp] theorem branch?_setNode (g : Graph α) (n : Node) (j : BranchId) : (g.setNode n).branch? j = g.branch? j := rfl

theorem node?_createNode (g : Graph α) (name : String) (j : NodeId) :
    (g.createNode name).2.node? j = if j = ⟨g.nodes.size⟩ then some { id := ⟨g.nodes.size⟩, name } else g.node? j := by
  simp only [node?, createNode, join_getElem?_push, ← Id.index_inj]

@[simp] theorem branch?_createNode (g : Graph α) (name : String) (j : BranchId) :
    (g.createNode name).2.branch? j = g.branch? j := rfl

theorem node_eq_ok_iff {g : Graph α} {i : NodeId} {n : Node} : g.node i = .ok n ↔ g.node? i = some n := by
  unfold node
  cases g.node? i <;> simp

theorem branch_eq_ok_iff {g : Graph α} {i : BranchId} {b : Branch α} : g.branch i = .ok b ↔ g.branch? i = some b := by
  unfold branch
  cases g.branch? i <;> simp

/-! ## Well-formed graphs -/

/-- **The branches with a property**, in the order of creation. -/
structure Lists (g : Graph α) (ids : List BranchId) (P : Branch α → Prop) : Prop where
  oldest : Oldest ids
  mem_iff : ∀ i, i ∈ ids ↔ ∃ b, g.branch? i = some b ∧ P b

/-- **The registries of a graph agree.** -/
structure WellFormed (g : Graph α) : Prop where
  node_id : ∀ {v n}, g.node? v = some n → n.id = v
  branch_id : ∀ {i b}, g.branch? i = some b → b.id = i
  source_live : ∀ {i b}, g.branch? i = some b → ∃ n, g.node? b.source = some n
  dest_live : ∀ {i b}, g.branch? i = some b → ∃ n, g.node? b.dest = some n
  outgoing : ∀ {v n}, g.node? v = some n → g.Lists n.outgoing (·.source = v)
  incoming : ∀ {v n}, g.node? v = some n → g.Lists n.incoming (·.dest = v)

theorem index_lt_of_node? {g : Graph α} {v : NodeId} {n : Node} (h : g.node? v = some n) : v.index < g.nodes.size :=
  lt_size_of_join h

theorem index_lt_of_branch? {g : Graph α} {i : BranchId} {b : Branch α} (h : g.branch? i = some b) :
    i.index < g.branches.size :=
  lt_size_of_join h

namespace Lists

variable {g g' : Graph α} {ids : List BranchId} {P : Branch α → Prop}

/-- Nothing is listed when no branch has the property. -/
theorem nil (h : ∀ {i b}, g.branch? i = some b → ¬P b) : g.Lists [] P :=
  ⟨.nil, fun _ => ⟨fun hi => absurd hi List.not_mem_nil, fun ⟨_, hb, hP⟩ => absurd hP (h hb)⟩⟩

/-- A new branch is listed last. -/
theorem snoc (h : g.Lists ids P) {b : Branch α} [Decidable (P b)]
    (hg' : ∀ i, g'.branch? i = if i = ⟨g.branches.size⟩ then some b else g.branch? i) :
    g'.Lists (if P b then ids ++ [⟨g.branches.size⟩] else ids) P := by
  have hold : ∀ {i}, i ∈ ids → i.index < g.branches.size := by
    intro i hi
    obtain ⟨c, hc, -⟩ := (h.mem_iff i).mp hi
    exact index_lt_of_branch? hc
  have hnew : ⟨g.branches.size⟩ ∉ ids := fun hi => Nat.lt_irrefl _ (hold hi)
  have hmem : ∀ i, i ≠ ⟨g.branches.size⟩ → (i ∈ ids ↔ ∃ b, g'.branch? i = some b ∧ P b) := by
    intro i hi
    rw [hg', if_neg hi]
    exact h.mem_iff i
  split
  · next hP =>
    refine ⟨List.pairwise_append.mpr ⟨h.oldest, List.pairwise_singleton _ _, fun i hi j hj => ?_⟩, fun i => ?_⟩
    · rw [List.mem_singleton.mp hj]
      exact hold hi
    · rw [List.mem_append, List.mem_singleton]
      by_cases hi : i = ⟨g.branches.size⟩
      · simp [hi, hg', hP]
      · rw [← hmem i hi]
        exact or_iff_left hi
  · next hP =>
    refine ⟨h.oldest, fun i => ?_⟩
    by_cases hi : i = ⟨g.branches.size⟩
    · simp [hi, hg', hP, hnew]
    · exact hmem i hi

/-- Branches that are removed are listed no longer. -/
theorem filter (h : g.Lists ids P) {gone : List BranchId}
    (hg' : ∀ i, g'.branch? i = if i ∈ gone then none else g.branch? i) : g'.Lists (ids.filter (· ∉ gone)) P := by
  refine ⟨h.oldest.filter _, fun i => ?_⟩
  rw [List.mem_filter, h.mem_iff, hg']
  by_cases hi : i ∈ gone <;> simp [hi]

/-- A branch may be put in the place of another that has the property if and only if it has it. -/
theorem replace (h : g.Lists ids P) {i : BranchId} {b c : Branch α} (hb : g.branch? i = some b) (hP : P c ↔ P b)
    (hg' : ∀ j, g'.branch? j = if j = i then some c else g.branch? j) : g'.Lists ids P := by
  refine ⟨h.oldest, fun j => ?_⟩
  rw [h.mem_iff, hg']
  by_cases hj : j = i
  · subst hj
    simp [hb, hP]
  · simp [hj]

end Lists

namespace WellFormed

variable {g : Graph α}

/-- The empty graph. -/
theorem empty : WellFormed ({} : Graph α) := by
  constructor <;> intros <;> rename_i h <;> simp [node?, branch?] at h

end WellFormed

/-! ## The ends of a branch -/

/-- A node with its outgoing branches changed if it is the source, and its incoming ones if it is the destination. -/
def Node.atEnds (source dest : NodeId) (f h : List BranchId → List BranchId) (n : Node) : Node :=
  { n with
    outgoing := if source = n.id then f n.outgoing else n.outgoing
    incoming := if dest = n.id then h n.incoming else n.incoming }

/-- Changing the lists of the source and then those of the destination, as both ends are found. -/
theorem setEnds {g : Graph α} (hid : ∀ {v n}, g.node? v = some n → n.id = v) {source dest : NodeId} {s d : Node}
    (hs : g.node? source = some s) (hd : g.node? dest = some d) (f h : List BranchId → List BranchId) :
    ∃ d', (g.setNode { s with outgoing := f s.outgoing }).node dest = .ok d' ∧
      ∀ v, ((g.setNode { s with outgoing := f s.outgoing }).setNode { d' with incoming := h d'.incoming }).node? v =
        (g.node? v).map (Node.atEnds source dest f h) := by
  have hsid : s.id = source := hid hs
  have hdid : d.id = dest := hid hd
  have hfirst : ∀ v, (g.setNode { s with outgoing := f s.outgoing }).node? v =
      if v = source then some { s with outgoing := f s.outgoing } else g.node? v := by
    intro v
    simp [node?_setNode, hsid, index_lt_of_node? hs]
  have hd' : (g.setNode { s with outgoing := f s.outgoing }).node? dest =
      some { d with outgoing := if source = dest then f d.outgoing else d.outgoing } := by
    rw [hfirst]
    by_cases hds : dest = source
    · subst hds
      cases hs.symm.trans hd
      simp
    · simp [hds, Ne.symm hds, hd]
  have hlt : d.id.index < (g.setNode { s with outgoing := f s.outgoing }).nodes.size :=
    hdid ▸ index_lt_of_node? hd'
  refine ⟨_, node_eq_ok_iff.mpr hd', fun v => ?_⟩
  rw [node?_setNode, hfirst]
  by_cases hvd : v = dest
  · subst hvd
    rw [if_pos ⟨hdid.symm, hlt⟩, hd]
    simp [Node.atEnds, hdid]
  · rw [if_neg fun h => hvd (h.1.trans hdid)]
    by_cases hvs : v = source
    · subst hvs
      simp [hs, Node.atEnds, hsid, Ne.symm hvd]
    · rw [if_neg hvs]
      cases hn : g.node? v with
      | none => rfl
      | some n =>
        cases hid hn
        simp [Node.atEnds, Ne.symm hvs, Ne.symm hvd]

namespace WellFormed

variable {g : Graph α}

/-- An old node is found as it was but for its lists. -/
theorem exists_node?_of_map {g' : Graph α} {f : Node → Node} (hnode : ∀ v, g'.node? v = (g.node? v).map f) {v : NodeId}
    (h : ∃ n, g.node? v = some n) : ∃ n, g'.node? v = some n := by
  obtain ⟨n, hn⟩ := h
  exact ⟨f n, by rw [hnode, hn]; rfl⟩

end WellFormed

end Graph

end SignalFlow
