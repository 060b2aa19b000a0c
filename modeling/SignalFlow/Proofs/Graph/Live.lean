import SignalFlow.Graph.Index
import SignalFlow.Proofs.Graph.WellFormed

/-!
# Live nodes and branches

On a well-formed graph the look-ups and the lists of live entities agree: `mem_liveBranches`, `mem_liveIds`, and
`outgoing_eq` and `incoming_eq`, by which a node lists the live branches that leave and enter it. A list of live
entities is in the order of their handles, so it is determined by its members (`eq_of_oldest`).

The numbering of the live nodes is a bijection (`position_eq_ok_iff`): the node of number `n` is the `n`-th live one.
-/

namespace SignalFlow

/-- Lists in the order of creation are equal when they have the same members. -/
theorem eq_of_oldest {xs ys : List Id} (hx : Oldest xs) (hy : Oldest ys) (h : ∀ i, i ∈ xs ↔ i ∈ ys) : xs = ys :=
  ((List.perm_ext_iff_of_nodup (nodup_of_oldest hx) (nodup_of_oldest hy)).mpr h).eq_of_pairwise
    (fun _ _ _ _ hlt hgt => absurd hlt (Nat.lt_asymm hgt)) hx hy

namespace Graph

variable {α : Type} {g : Graph α}

/-- The live branches that leave a node, in the order of creation. -/
def leaving (g : Graph α) (v : NodeId) : List (Branch α) := g.liveBranches.filter (·.source = v)

theorem mem_leaving {v : NodeId} {b : Branch α} : b ∈ g.leaving v ↔ b ∈ g.liveBranches ∧ b.source = v := by
  simp [leaving]

namespace WellFormed

theorem mem_liveBranches (hg : g.WellFormed) {b : Branch α} : b ∈ g.liveBranches ↔ g.branch? b.id = some b := by
  refine mem_filterMap_id_iff.trans ⟨fun ⟨j, hj⟩ => ?_, fun h => ⟨_, h⟩⟩
  rw [hg.branch_id (i := ⟨j⟩) hj]
  exact hj

theorem mem_liveNodes (hg : g.WellFormed) {n : Node} : n ∈ g.liveNodes ↔ g.node? n.id = some n := by
  refine mem_filterMap_id_iff.trans ⟨fun ⟨j, hj⟩ => ?_, fun h => ⟨_, h⟩⟩
  rw [hg.node_id (v := ⟨j⟩) hj]
  exact hj

theorem mem_liveIds (hg : g.WellFormed) {v : NodeId} : v ∈ g.liveIds ↔ ∃ n, g.node? v = some n := by
  refine List.mem_map.trans ⟨?_, ?_⟩
  · rintro ⟨n, hn, rfl⟩
    exact ⟨n, hg.mem_liveNodes.mp hn⟩
  · rintro ⟨n, hn⟩
    have hid : n.id = v := hg.node_id hn
    exact ⟨n, hg.mem_liveNodes.mpr (hid ▸ hn), hid⟩

theorem liveBranches_pairwise (hg : g.WellFormed) : g.liveBranches.Pairwise (·.id.index < ·.id.index) :=
  pairwise_filterMap_id fun j _ h => congrArg Id.index (hg.branch_id (i := ⟨j⟩) h)

theorem oldest_liveIds (hg : g.WellFormed) : Oldest g.liveIds :=
  List.pairwise_map.mpr (pairwise_filterMap_id fun j _ h => congrArg Id.index (hg.node_id (v := ⟨j⟩) h))

theorem source_mem_liveIds (hg : g.WellFormed) {b : Branch α} (hb : b ∈ g.liveBranches) : b.source ∈ g.liveIds :=
  hg.mem_liveIds.mpr (hg.source_live (hg.mem_liveBranches.mp hb))

theorem dest_mem_liveIds (hg : g.WellFormed) {b : Branch α} (hb : b ∈ g.liveBranches) : b.dest ∈ g.liveIds :=
  hg.mem_liveIds.mpr (hg.dest_live (hg.mem_liveBranches.mp hb))

/-- A live branch is determined by its handle. -/
theorem eq_of_id_eq (hg : g.WellFormed) {b c : Branch α} (hb : b ∈ g.liveBranches) (hc : c ∈ g.liveBranches)
    (h : b.id = c.id) : b = c :=
  Option.some.inj ((hg.mem_liveBranches.mp hb).symm.trans (h ▸ hg.mem_liveBranches.mp hc))

theorem leaving_pairwise (hg : g.WellFormed) (v : NodeId) : (g.leaving v).Pairwise (·.id.index < ·.id.index) :=
  hg.liveBranches_pairwise.filter _

/-- What lists the branches with a property is the list of those among the live ones. -/
theorem eq_of_lists (hg : g.WellFormed) {ids : List BranchId} {P : Branch α → Prop} [DecidablePred P]
    (h : g.Lists ids P) : ids = (g.liveBranches.filter (P ·)).map Branch.id := by
  refine eq_of_oldest h.oldest (List.pairwise_map.mpr (hg.liveBranches_pairwise.filter _)) fun i => ?_
  rw [h.mem_iff, List.mem_map]
  refine exists_congr fun b => ?_
  rw [List.mem_filter, hg.mem_liveBranches, decide_eq_true_eq]
  refine ⟨fun ⟨hb, hP⟩ => ?_, fun ⟨⟨hb, hP⟩, hi⟩ => ⟨hi ▸ hb, hP⟩⟩
  have hid : b.id = i := hg.branch_id hb
  exact ⟨⟨hid ▸ hb, hP⟩, hid⟩

/-- **A node lists the live branches that leave it**, in the order of creation. -/
theorem outgoing_eq (hg : g.WellFormed) (v : NodeId) : g.outgoing v = (g.leaving v).map Branch.id := by
  unfold Graph.outgoing
  cases hn : g.node? v with
  | some n => exact hg.eq_of_lists (hg.outgoing hn)
  | none =>
    have hnone : g.leaving v = [] := by
      refine List.filter_eq_nil_iff.mpr fun b hb hs => ?_
      obtain ⟨n, h⟩ := hg.source_live (hg.mem_liveBranches.mp hb)
      cases hn.symm.trans (of_decide_eq_true hs ▸ h)
    rw [hnone]
    rfl

/-- **A node lists the live branches that enter it**, in the order of creation. -/
theorem incoming_eq (hg : g.WellFormed) (v : NodeId) :
    g.incoming v = (g.liveBranches.filter (·.dest = v)).map Branch.id := by
  unfold Graph.incoming
  cases hn : g.node? v with
  | some n => exact hg.eq_of_lists (hg.incoming hn)
  | none =>
    have hnone : g.liveBranches.filter (·.dest = v) = [] := by
      refine List.filter_eq_nil_iff.mpr fun b hb hd => ?_
      obtain ⟨n, h⟩ := hg.dest_live (hg.mem_liveBranches.mp hb)
      cases hn.symm.trans (of_decide_eq_true hd ▸ h)
    rw [hnone]
    rfl

end WellFormed

end Graph

/-! ## The numbering of the live nodes -/

namespace Index

/-- Every handle of a list is below the size of the table of its numbers. -/
theorem index_lt_foldl_max {ids : List NodeId} {i : NodeId} (hi : i ∈ ids) (m : Nat) :
    i.index < (ids.map fun i => i.index + 1).foldl max m := by
  have hle : ∀ (ns : List Nat) (m : Nat), m ≤ ns.foldl max m := by
    intro ns
    induction ns with
    | nil => exact Nat.le_refl
    | cons n ns ih => exact fun m => (Nat.le_max_left m n).trans (ih _)
  induction ids generalizing m with
  | nil => cases hi
  | cons j ids ih =>
    rcases List.mem_cons.mp hi with rfl | hi
    · exact (Nat.le_max_right m _).trans (hle _ _)
    · exact ih hi _

/-- Entering the numbers of different handles into a table one after the other. -/
theorem join_getElem?_foldl_set {l : List (NodeId × Nat)} (hl : (l.map Prod.fst).Nodup) {table : Array (Option Nat)}
    (hsize : ∀ p ∈ l, p.1.index < table.size) (k n : Nat) :
    (l.foldl (fun table p => table.setIfInBounds p.1.index (some p.2)) table)[k]?.join = some n ↔
      (⟨k⟩, n) ∈ l ∨ ((∀ p ∈ l, p.1.index ≠ k) ∧ table[k]?.join = some n) := by
  induction l generalizing table with
  | nil => simp
  | cons p l ih =>
    obtain ⟨i, m⟩ := p
    obtain ⟨hi, hl⟩ := List.nodup_cons.mp hl
    have hlt : i.index < table.size := hsize (i, m) List.mem_cons_self
    have hnot : ∀ q ∈ l, q.1 ≠ i := fun q hq h => hi (List.mem_map.mpr ⟨q, hq, h⟩)
    rw [List.foldl_cons, ih hl fun q hq => by simpa using hsize q (List.mem_cons_of_mem _ hq),
      join_getElem?_setIfInBounds]
    by_cases hk : k = i.index
    · subst hk
      have hne : ∀ j m, (j, m) ∈ l → ¬i.index = j.index := fun j m hq h => hnot (j, m) hq (Id.index_inj.mp h.symm)
      have hmem : (i, n) ∉ l := fun h => hnot _ h rfl
      simpa [hlt, hmem, eq_comm] using fun _ => hne
    · have hne : (⟨k⟩ : NodeId) ≠ i := fun h => hk (congrArg Id.index h)
      simp [hk, hne, Ne.symm hk]

theorem join_positionsOf {ids : List NodeId} (hids : ids.Nodup) (k n : Nat) :
    (positionsOf ids)[k]?.join = some n ↔ ids[n]? = some ⟨k⟩ := by
  have hmap : ids.zipIdx.map Prod.fst = ids := List.zipIdx_map_fst 0 ids
  unfold positionsOf
  rw [join_getElem?_foldl_set (hmap.symm ▸ hids), List.mk_mem_zipIdx_iff_getElem?]
  · refine or_iff_left fun ⟨_, h⟩ => ?_
    rw [Array.getElem?_replicate] at h
    split at h <;> cases h
  · intro p hp
    rw [Array.size_replicate]
    exact index_lt_foldl_max (hmap ▸ List.mem_map_of_mem hp) 0

/-- **The numbering is a bijection** between the live nodes and the numbers below their count. -/
theorem position_eq_ok_iff {α : Type} {g : Graph α} (hg : g.WellFormed) {v : NodeId} {n : Nat} :
    (ofGraph g).position v = .ok n ↔ g.liveIds[n]? = some v := by
  have h := join_positionsOf (nodup_of_oldest hg.oldest_liveIds) v.index n
  rw [← show v = ⟨v.index⟩ from rfl] at h
  rw [← h, position, ofGraph]
  cases (positionsOf g.liveIds)[v.index]?.join <;> simp

end Index

end SignalFlow
