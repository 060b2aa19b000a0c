import Mathlib.Algebra.BigOperators.Ring.List
import SignalFlow.Proofs.Graph.Walk
import SignalFlow.Proofs.Mason.Cut

/-!
# Flow along walks

`flowMatrix g w` has for every two live nodes the sum of the weights of the branches from the first to the second. The
sum over the walks listed, of the gain of a walk times the determinant with the nodes of the walk cut out, is an entry
of an adjugate (`sum_walks`). The induction is along the enumeration: following a branch cuts out the node that it leads
to, and `adjugate_cut_of_ne` says that the adjugate takes the same step.
-/

namespace SignalFlow.Graph

variable {α R : Type} [CommRing R] {g : Graph α} {w : Branch α → R}

/-- A live node. -/
abbrev LiveNode (g : Graph α) : Type := { v : NodeId // v ∈ g.liveIds }

/-- **The flow matrix**: from one live node to another, the sum of the weights of all live branches. -/
def flowMatrix (g : Graph α) (w : Branch α → R) : Matrix g.LiveNode g.LiveNode R :=
  Matrix.of fun s d => ((g.liveBranches.filter fun b => b.source = s.1 ∧ b.dest = d.1).map w).sum

/-- The live nodes of a list. -/
def cutOut (g : Graph α) (avoid : List NodeId) : Finset g.LiveNode := Finset.univ.filter (·.1 ∈ avoid)

@[simp] theorem mem_cutOut {avoid : List NodeId} {v : g.LiveNode} : v ∈ g.cutOut avoid ↔ v.1 ∈ avoid := by
  simp [cutOut]

theorem cutOut_congr (g : Graph α) {avoid avoid' : List NodeId} (h : ∀ v, v ∈ avoid ↔ v ∈ avoid') :
    g.cutOut avoid = g.cutOut avoid' := by
  ext v
  rw [mem_cutOut, mem_cutOut, h]

theorem cutOut_nil (g : Graph α) : g.cutOut [] = ∅ := by
  ext v
  simp

theorem cutOut_cons (g : Graph α) (v : g.LiveNode) (avoid : List NodeId) :
    g.cutOut (v.1 :: avoid) = insert v (g.cutOut avoid) := by
  ext u
  simp [Subtype.ext_iff]

/-- The determinant with some nodes cut out. -/
def flowDet (g : Graph α) (w : Branch α → R) (avoid : List NodeId) : R :=
  (cut (g.flowMatrix w) (g.cutOut avoid)).det

/-- The flow from a node to another with some nodes cut out, as the adjugate has it. -/
def flowTo (g : Graph α) (w : Branch α → R) (avoid : List NodeId) (u v : g.LiveNode) : R :=
  (cut (g.flowMatrix w) (g.cutOut avoid)).adjugate u v

theorem flowDet_congr (g : Graph α) (w : Branch α → R) {avoid avoid' : List NodeId} (h : ∀ v, v ∈ avoid ↔ v ∈ avoid') :
    g.flowDet w avoid = g.flowDet w avoid' := by
  rw [flowDet, flowDet, cutOut_congr g h]

/-- What some branches carry into a node. -/
def into (w : Branch α → R) (bs : List (Branch α)) (v : NodeId) : R := ((bs.filter (·.dest = v)).map w).sum

theorem flowMatrix_apply (g : Graph α) (w : Branch α → R) (u v : g.LiveNode) :
    g.flowMatrix w u v = into w (g.leaving u) v := by
  simp only [flowMatrix, Matrix.of_apply, into, leaving, List.filter_filter, Bool.decide_and, Bool.and_comm]

theorem into_cons (w : Branch α → R) (b : Branch α) (bs : List (Branch α)) (v : NodeId) :
    into w (b :: bs) v = (if b.dest = v then w b else 0) + into w bs v := by
  unfold into
  rw [List.filter_cons]
  by_cases h : b.dest = v <;> simp [h]

/-- One more branch carries its weight into the node that it leads to, unless this is cut out. -/
theorem sum_into_cons (w : Branch α → R) (b : Branch α) (bs : List (Branch α)) (avoid : List NodeId)
    (v : g.LiveNode) (hv : b.dest = v) (f : g.LiveNode → R) :
    (∑ u with u ∉ g.cutOut avoid, into w (b :: bs) u * f u) =
      (if v.1 ∈ avoid then 0 else w b * f v) + ∑ u with u ∉ g.cutOut avoid, into w bs u * f u := by
  simp only [into_cons, add_mul, Finset.sum_add_distrib, hv, ite_mul, zero_mul]
  refine congrArg (· + _) ?_
  simp only [← Subtype.ext_iff, Finset.sum_ite_eq, Finset.mem_filter, mem_cutOut, Finset.mem_univ, true_and, ite_not]

/-- **The sum over the walks listed**: each walk with its gain, and with its nodes cut out. -/
theorem sum_walks (hg : g.WellFormed) (w : Branch α → R) (t : g.LiveNode) (untried : List (Branch α))
    (avoid : List NodeId) (hlive : ∀ b ∈ untried, b ∈ g.liveBranches) (ht : t.1 ∉ avoid) :
    ((g.walks t untried avoid).map fun bs => (bs.map w).prod * g.flowDet w (bs.map Branch.dest ++ avoid)).sum =
      ∑ v with v ∉ g.cutOut avoid, into w untried v * g.flowTo w avoid v t := by
  refine walks_induction (P := fun untried avoid => t.1 ∉ avoid →
    ((g.walks t untried avoid).map fun bs => (bs.map w).prod * g.flowDet w (bs.map Branch.dest ++ avoid)).sum =
      ∑ v with v ∉ g.cutOut avoid, into w untried v * g.flowTo w avoid v t)
    hg t.1 ?nil ?pass ?stop ?enter untried avoid hlive ht
  case nil =>
    intro avoid _
    simp [into]
  case pass =>
    intro b rest avoid hb h ih ht
    rw [walks_cons_of_mem h, ih ht, sum_into_cons w b rest avoid ⟨b.dest, hg.dest_mem_liveIds hb⟩ rfl, if_pos h,
      zero_add]
  case stop =>
    intro b rest avoid hb h htarget ih ht
    -- The walk `[b]` cuts out the target, as the diagonal of the adjugate does.
    rw [walks_cons_of_eq (hg.dest_mem_liveIds hb) h htarget, List.map_cons, List.sum_cons, ih ht,
      sum_into_cons w b rest avoid t htarget, if_neg ht, flowTo, adjugate_cut_self, ← cutOut_cons, ← htarget]
    simp [flowDet]
  case enter =>
    intro b rest avoid hb h htarget ih₁ ih₂ ht
    -- The walks that go on from `b` have its weight in front, and cut out the node that it leads to.
    have hnot : t.1 ∉ b.dest :: avoid := by simp [Ne.symm htarget, ht]
    have hlong : ∀ bs : List (Branch α), ((b :: bs).map w).prod * g.flowDet w ((b :: bs).map Branch.dest ++ avoid) =
        w b * ((bs.map w).prod * g.flowDet w (bs.map Branch.dest ++ b.dest :: avoid)) := by
      intro bs
      have hset : g.flowDet w ((b :: bs).map Branch.dest ++ avoid) =
          g.flowDet w (bs.map Branch.dest ++ b.dest :: avoid) := flowDet_congr g w fun v => by simp [or_left_comm]
      rw [hset, List.map_cons, List.prod_cons, mul_assoc]
    have hstep := adjugate_cut_of_ne (X := g.cutOut avoid) (a := ⟨b.dest, hg.dest_mem_liveIds hb⟩) (b := t)
      (g.flowMatrix w) (by simpa using h) (fun h => htarget (congrArg Subtype.val h))
    rw [walks_cons_of_ne (hg.dest_mem_liveIds hb) h htarget, List.map_append, List.sum_append, ih₂ ht,
      sum_into_cons w b rest avoid ⟨b.dest, hg.dest_mem_liveIds hb⟩ rfl, if_neg h, List.map_map]
    simp only [Function.comp_def, hlong]
    rw [List.sum_map_mul_left, ih₁ hnot, flowTo, hstep, ← cutOut_cons]
    simp only [flowMatrix_apply, flowTo]

/-- **The sum over the walks from one node to another** that visit no node twice. -/
theorem sum_walks_leaving (hg : g.WellFormed) (w : Branch α → R) {s t : g.LiveNode} (hst : s ≠ t) :
    ((g.walks t (g.leaving s) [s.1]).map fun bs => (bs.map w).prod * g.flowDet w (s.1 :: bs.map Branch.dest)).sum =
      (1 - g.flowMatrix w).adjugate s t := by
  have hnot : t.1 ∉ [s.1] := by simpa [Subtype.ext_iff, eq_comm] using hst
  have hsum := sum_walks hg w t (g.leaving s) [s.1] (fun b hb => (mem_leaving.mp hb).1) hnot
  have hset : ∀ bs : List (Branch α),
      g.flowDet w (bs.map Branch.dest ++ [s.1]) = g.flowDet w (s.1 :: bs.map Branch.dest) :=
    fun bs => flowDet_congr g w fun v => by simp [or_comm]
  simp only [hset] at hsum
  rw [hsum, ← cut_empty, adjugate_cut_of_ne (g.flowMatrix w) (Finset.notMem_empty s) hst]
  simp only [flowMatrix_apply, flowTo, cutOut_cons, cutOut_nil]

end SignalFlow.Graph
