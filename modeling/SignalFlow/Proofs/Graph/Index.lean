import SignalFlow.Double
import SignalFlow.Proofs.Graph.Change
import SignalFlow.Proofs.Graph.Live

/-!
# Dense indices

The numbering of a graph lists the live nodes in the order of their handles. Looking up the node of a number
(`nodeAt_eq_ok_iff`) and the number of a node (`position_eq_ok_iff`) are inverse to each other, and a handle has no
number exactly when no live node has it (`position_eq_error_iff`), whether its place is empty or beyond the table. So on
every graph that changes lead to, the numbering is a bijection (`ofGraph_exact`).
-/

namespace SignalFlow.Index

open SignalFlow.Graph (Reachable after)

variable {α : Type} {g : Graph α}

theorem nodeAt_eq_ok_iff {v : NodeId} {n : Nat} : (ofGraph g).nodeAt n = .ok v ↔ g.liveIds[n]? = some v := by
  rw [nodeAt, ofGraph, List.getElem?_toArray]
  cases g.liveIds[n]? <;> simp

theorem lt_size_of_nodeAt {v : NodeId} {n : Nat} (h : (ofGraph g).nodeAt n = .ok v) : n < (ofGraph g).size :=
  (List.getElem?_eq_some_iff.mp (nodeAt_eq_ok_iff.mp h)).1

/-- **A handle has no number** exactly when no live node has it. -/
theorem position_eq_error_iff (hg : g.WellFormed) {v : NodeId} :
    (ofGraph g).position v = .error (.missing .nodeId) ↔ g.node? v = none := by
  rw [← Option.not_isSome_iff_eq_none, Option.isSome_iff_exists, ← hg.mem_liveIds, List.mem_iff_getElem?]
  simp only [← position_eq_ok_iff hg]
  rw [position]
  cases (ofGraph g).positions[v.index]?.join <;> simp

/-- **The numbering of the live nodes**: they are listed in the order of their handles, a node has the number at which
it is listed, and a handle without a live node has none. -/
theorem ofGraph_exact [Scalar α] (hg : g.Reachable) :
    (ofGraph g).ids.toList.Pairwise (·.index < ·.index) ∧
      (∀ v, v ∈ (ofGraph g).ids.toList ↔ ∃ n, g.node? v = some n) ∧
      (∀ v n, (ofGraph g).position v = .ok n ↔ n < (ofGraph g).size ∧ (ofGraph g).nodeAt n = .ok v) ∧
      ∀ v, (ofGraph g).position v = .error (.missing .nodeId) ↔ g.node? v = none := by
  have hwf := hg.wellFormed
  refine ⟨hwf.oldest_liveIds, fun v => hwf.mem_liveIds, fun v n => ?_, fun v => position_eq_error_iff hwf⟩
  rw [position_eq_ok_iff hwf, ← nodeAt_eq_ok_iff]
  exact ⟨fun h => ⟨lt_size_of_nodeAt h, h⟩, And.right⟩

/-- Four nodes, the second and the last of them destroyed: the third has the number 1. -/
theorem ofGraph_exact_holes :
    let g : Graph Double := after {} [.createNode "a", .createNode "b", .createNode "c", .createNode "d",
      .destroyNode ⟨1⟩, .destroyNode ⟨3⟩]
    g.Reachable ∧ (ofGraph g).position ⟨2⟩ = .ok 1 ∧ (ofGraph g).nodeAt 1 = .ok ⟨2⟩ ∧
      (ofGraph g).position ⟨1⟩ = .error (.missing .nodeId) ∧ (ofGraph g).position ⟨3⟩ = .error (.missing .nodeId) ∧
      (ofGraph g).position ⟨9⟩ = .error (.missing .nodeId) := by
  intro g
  have hg : g.Reachable := ⟨_, rfl⟩
  obtain ⟨-, -, hposition, hmissing⟩ := ofGraph_exact hg
  have hlisted : (ofGraph g).position ⟨2⟩ = .ok 1 := (hposition _ _).mpr ⟨by decide, by rfl⟩
  exact ⟨hg, hlisted, ((hposition _ _).mp hlisted).2, (hmissing _).mpr rfl, (hmissing _).mpr rfl, (hmissing _).mpr rfl⟩

end SignalFlow.Index
