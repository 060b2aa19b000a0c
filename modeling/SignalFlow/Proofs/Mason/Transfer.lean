import Mathlib.Tactic.NormNum
import SignalFlow.Proofs.Mason.Determinant

/-!
# Mason's rule solves the flow equations

An assignment of values to the live nodes solves the flow equations of an input if every node has the sum of what its
incoming branches carry, and the input 1 more (`Flow`). Solving finds the determinant of `1 - A` and an entry of its
adjugate (`solve_value`). So the determinant times the value of the output is the numerator, and the transfer function
has the value of the output unless the determinant is zero (`solve_exact`).

The numerator is the sum over the forward paths of gain and cofactor (`value_addPaths`); this is the entry of the
adjugate of `1 - A` between input and output (`sum_walks_leaving`), and by Cramer's rule what the determinant makes of
the value of the output (`det_mul_of_vecMul`).
-/

namespace SignalFlow.Graph

open Matrix

variable {α : Type} {g : Graph α}

/-- **The flow equations** of an input: a node has the sum of what its incoming branches carry, the input 1 more. -/
def Flow {K : Type} [CommRing K] (g : Graph α) (w : Branch α → K) (input : NodeId) (x : NodeId → K) : Prop :=
  ∀ v ∈ g.liveIds, x v = (if v = input then 1 else 0) +
    ((g.liveBranches.filter (·.dest = v)).map fun b => w b * x b.source).sum

/-! ## Cramer's rule -/

/-- Multiplying a matrix from the left to a unit vector picks a row of its adjugate. -/
theorem det_mul_of_vecMul {n R : Type} [Fintype n] [DecidableEq n] [CommRing R] {M : Matrix n n R} {x : n → R} {i : n}
    (h : x ᵥ* M = Pi.single i 1) (j : n) : M.det * x j = M.adjugate i j := by
  have hdet : x ᵥ* (M * M.adjugate) = M.det • x := by rw [mul_adjugate, vecMul_smul, vecMul_one]
  have hrow : x ᵥ* (M * M.adjugate) = M.adjugate i := by rw [← vecMul_vecMul, h, single_one_vecMul]; rfl
  exact congrFun (hdet.symm.trans hrow) j

/-- A sum over branches, source by source. -/
theorem sum_by_source {R : Type} [CommRing R] (f : Branch α → R) {bs : List (Branch α)}
    (hbs : ∀ b ∈ bs, b.source ∈ g.liveIds) :
    (∑ u : g.LiveNode, ((bs.filter (·.source = u.1)).map f).sum) = (bs.map f).sum := by
  induction bs with
  | nil => simp
  | cons b bs ih =>
    have hcons : ∀ u : g.LiveNode, (((b :: bs).filter (·.source = u.1)).map f).sum =
        (if ⟨b.source, hbs b List.mem_cons_self⟩ = u then f b else 0) + ((bs.filter (·.source = u.1)).map f).sum := by
      intro u
      by_cases hu : b.source = u.1 <;> simp [hu, Subtype.ext_iff]
    simp only [hcons, Finset.sum_add_distrib, ih fun c hc => hbs c (List.mem_cons_of_mem _ hc), Finset.sum_ite_eq,
      Finset.mem_univ, if_true, List.map_cons, List.sum_cons]

/-- What flows into a node, summed over the nodes that it comes from. -/
theorem sum_mul_flowMatrix {R : Type} [CommRing R] (hg : g.WellFormed) (w : Branch α → R) (x : NodeId → R)
    (v : g.LiveNode) :
    (∑ u : g.LiveNode, x u.1 * g.flowMatrix w u v) =
      ((g.liveBranches.filter (·.dest = v.1)).map fun b => w b * x b.source).sum := by
  rw [← sum_by_source _ fun b hb => hg.source_mem_liveIds (List.mem_filter.mp hb).1]
  refine Finset.sum_congr rfl fun u _ => ?_
  rw [flowMatrix, of_apply, ← List.sum_map_mul_left, List.filter_filter]
  simp only [← Bool.decide_and]
  refine congrArg List.sum (List.map_congr_left fun b hb => ?_)
  rw [(of_decide_eq_true (List.mem_filter.mp hb).2).1, mul_comm]

/-- The flow equations, as an equation of matrices. -/
theorem Flow.vecMul {R : Type} [CommRing R] (hg : g.WellFormed) {w : Branch α → R} {input : NodeId} {x : NodeId → R}
    (hx : g.Flow w input x) (hi : input ∈ g.liveIds) :
    (fun v : g.LiveNode => x v.1) ᵥ* (1 - g.flowMatrix w) = Pi.single ⟨input, hi⟩ 1 := by
  funext v
  have hv := hx v v.2
  have hsum : ((fun v : g.LiveNode => x v.1) ᵥ* g.flowMatrix w) v = _ := sum_mul_flowMatrix hg w x v
  rw [vecMul_sub, vecMul_one, Pi.sub_apply, Pi.single_apply, hsum, sub_eq_iff_eq_add, hv]
  simp only [Subtype.ext_iff]

/-! ## The numerator -/

variable [Scalar α] {K : Type} [Field K] [Scalar K] [Scalar.ExactField K]
variable {r : Reading α K} {T : Bindings K} {w : Branch α → K}

/-- The term of a path has the value of its gain times its cofactor, also when the cofactor is left out. -/
theorem value_pathTerm {gain cofactor : Expr α} {x y : K} (hgain : r.value T gain = .ok x)
    (hcofactor : r.value T cofactor = .ok y) : r.value T (pathTerm gain cofactor) = .ok (x * y) := by
  unfold pathTerm
  by_cases hone : cofactor.tree.isLiteral Scalar.one = true
  · have hy : y = 1 := Except.ok.inj (hcofactor.symm.trans (Reading.value_of_isLiteral_one hone))
    rw [if_pos hone, hy, mul_one, hgain]
  · rw [if_neg hone]
    exact Reading.value_mul hgain hcofactor

/-- A term is added to the numerator so far, which is zero before the first one. -/
theorem value_addTerm {config : SolverConfig} (hconfig : config.simplify = false) {numerator : Option (Expr α)}
    {term : Expr α} {x y : K} (hnumerator : r.value T (numerator.getD (Expr.literal Scalar.zero)) = .ok x)
    (hterm : r.value T term = .ok y) : r.value T (addTerm config numerator term) = .ok (x + y) := by
  unfold addTerm
  rw [SolverConfig.simplifyConfig, hconfig]
  cases numerator with
  | none =>
    have hx : x = 0 := Except.ok.inj (hnumerator.symm.trans (r.value_zero T))
    rw [hx, zero_add]
    exact hterm
  | some sum => exact Reading.value_add hnumerator hterm

/-- **A cache that is right**: it holds determinants under the loops that they are over. -/
def CofactorCache.Right (table : LoopTable α) (config : SolverConfig) (cache : CofactorCache α) : Prop :=
  ∀ members cofactor, cache.lookup members = some cofactor →
    cofactor = table.determinantOf members config.simplifyConfig

/-- **The cache changes nothing**: a right cache answers the determinant over the loops, and stays right. -/
theorem cofactorOf_of_right {table : LoopTable α} {config : SolverConfig} {cache : CofactorCache α}
    (hcache : CofactorCache.Right table config cache) (members : List Nat) :
    ∃ cache', cofactorOf table config cache members =
        (table.determinantOf members config.simplifyConfig, cache') ∧ CofactorCache.Right table config cache' := by
  unfold cofactorOf
  cases hlookup : cache.lookup members with
  | some cofactor =>
    rw [← hcache members cofactor hlookup]
    exact ⟨cache, rfl, hcache⟩
  | none =>
    refine ⟨_, rfl, fun others cofactor h => ?_⟩
    rw [List.lookup_cons] at h
    cases hkey : others == members with
    | true =>
      rw [hkey] at h
      rw [beq_iff_eq.mp hkey, ← Option.some.inj h]
    | false =>
      rw [hkey] at h
      exact hcache others cofactor h

/-- **The numerator after some paths**: each adds its gain times the determinant with its nodes cut out. -/
theorem value_addPaths (hg : g.WellFormed) (hw : ∀ b ∈ g.liveBranches, r.value T b.weight = .ok (w b))
    {config : SolverConfig} (hconfig : config.simplify = false) {input output : NodeId} (hne : input ≠ output)
    {ps : List (List (Branch α))} (hps : ∀ bs ∈ ps, Walk g input bs output) {cache : CofactorCache α}
    (hcache : CofactorCache.Right g.loopTable config cache) {numerator : Option (Expr α)} {x : K}
    (hnumerator : r.value T (numerator.getD (Expr.literal Scalar.zero)) = .ok x) :
    ∃ result cofactors, g.addPaths g.loopTable config cache numerator (ps.map pathOf) = .ok (result, cofactors) ∧
      r.value T (result.getD (Expr.literal Scalar.zero)) =
        .ok (x + (ps.map fun bs => (bs.map w).prod * g.flowDet w (input :: bs.map Branch.dest)).sum) := by
  induction ps generalizing cache numerator x with
  | nil => exact ⟨numerator, [], rfl, by simpa using hnumerator⟩
  | cons bs ps ih =>
    have hwalk := hps bs List.mem_cons_self
    have hlive : ∀ b ∈ bs, b ∈ g.liveBranches := fun b hb => hwalk.mem_liveBranches hb
    have hgain : r.value T (Path.product (bs.map Branch.weight)) = .ok (bs.map w).prod :=
      Path.value_product fun b hb => hw b (hlive b hb)
    obtain ⟨cache', hcached, hcache'⟩ := cofactorOf_of_right hcache (g.loopTable.avoiding (Path.nodesOf bs))
    set cofactor := g.loopTable.determinantOf (g.loopTable.avoiding (Path.nodesOf bs)) config.simplifyConfig with hdef
    have hcofactor : r.value T cofactor = .ok (g.flowDet w (input :: bs.map Branch.dest)) := by
      rw [hdef, SolverConfig.simplifyConfig, hconfig, Path.nodesOf_walk hwalk hne]
      exact value_determinantOf_avoiding hg hw _
    set next := addTerm config numerator (pathTerm (Path.product (bs.map Branch.weight)) cofactor) with hnext
    have hvalue : r.value T ((some next).getD (Expr.literal Scalar.zero)) =
        .ok (x + (bs.map w).prod * g.flowDet w (input :: bs.map Branch.dest)) :=
      value_addTerm hconfig hnumerator (value_pathTerm hgain hcofactor)
    obtain ⟨result, cofactors, hok, hresult⟩ := ih (fun cs hcs => hps cs (List.mem_cons_of_mem _ hcs)) hcache' hvalue
    refine ⟨result, cofactor :: cofactors, ?_, ?_⟩
    · rw [List.map_cons, addPaths, Path.nodes_pathOf hg hlive, Path.gain_pathOf hg hlive]
      simp only [bind, Except.bind, hcached, ← hnext, hok]
      rfl
    · rw [hresult, List.map_cons, List.sum_cons, add_assoc]

/-! ## Mason's rule -/

/-- A graph of admitted size is solved from its forward paths and its loops. -/
theorem solve_eq (hg : g.WellFormed) {config : SolverConfig} (hmax : g.nodeCount ≤ config.maxNodes)
    {input output : NodeId} (hi : input ∈ g.liveIds) (ho : output ∈ g.liveIds) (hne : input ≠ output) :
    g.solve input output config =
      asSolver (g.mason ((g.walks output (g.leaving input) [input]).map pathOf) ((g.loopWalks [] g.liveIds).map pathOf)
        config) := by
  unfold solve
  rw [if_neg (Nat.not_lt.mpr hmax), forwardPaths_eq hg hi ho hne, loops_eq hg]
  rfl

/-- What Mason's rule makes of the loops of a graph and of paths that have been added up. -/
theorem mason_eq (hg : g.WellFormed) {config : SolverConfig} {ps : List Path} {result : Option (Expr α)}
    {cofactors : List (Expr α)} (hok : g.addPaths g.loopTable config [] none ps = .ok (result, cofactors)) :
    ∃ s, g.mason ps ((g.loopWalks [] g.liveIds).map pathOf) config = .ok s ∧
      s.determinant = g.loopTable.determinantOf g.loopTable.all config.simplifyConfig ∧
      s.numerator = result.getD (Expr.literal Scalar.zero) ∧ s.cofactors = cofactors ∧
      s.transferFunction =
        if ps.isEmpty then Expr.literal Scalar.zero else quotient config s.numerator s.determinant := by
  unfold mason
  rw [ofLoops_loops hg]
  show ∃ s, (g.addPaths g.loopTable config [] none ps >>= fun _ => _) = .ok s ∧ _
  rw [hok]
  exact ⟨_, rfl, rfl, rfl, rfl, rfl⟩

/-- The quotient has the value of the numerator over the determinant; it is zero when there is no path. -/
theorem value_transferFunction {config : SolverConfig} (hconfig : config.simplify = false) {ps : List Path}
    {numerator determinant : Expr α} {x y : K} (hnumerator : r.value T numerator = .ok x)
    (hdet : r.value T determinant = .ok y) (hps : ps = [] → x = 0) (hy : y ≠ 0) :
    r.value T (if ps.isEmpty then Expr.literal Scalar.zero else quotient config numerator determinant) =
      .ok (x / y) := by
  cases ps with
  | nil =>
    rw [hps rfl, zero_div]
    exact r.value_zero T
  | cons p ps =>
    show r.value T (quotient config numerator determinant) = _
    unfold quotient
    rw [hconfig]
    exact Reading.value_div hnumerator hdet hy

/-- **What solving a graph gives**: the determinant of `1 - A`, the entry of its adjugate between input and output, and
their quotient if there is one. -/
theorem solve_value (hg : g.WellFormed) (hw : ∀ b ∈ g.liveBranches, r.value T b.weight = .ok (w b))
    {config : SolverConfig} (hconfig : config.simplify = false) (hmax : g.nodeCount ≤ config.maxNodes)
    {input output : g.LiveNode} (hne : input ≠ output) :
    ∃ s, g.solve input.1 output.1 config = .ok s ∧
      r.value T s.determinant = .ok (1 - g.flowMatrix w).det ∧
      r.value T s.numerator = .ok ((1 - g.flowMatrix w).adjugate input output) ∧
      ((1 - g.flowMatrix w).det ≠ 0 → r.value T s.transferFunction =
        .ok ((1 - g.flowMatrix w).adjugate input output / (1 - g.flowMatrix w).det)) := by
  have hne' : input.1 ≠ output.1 := fun h => hne (Subtype.ext h)
  have hps : ∀ bs ∈ g.walks output.1 (g.leaving input.1) [input.1], Walk g input.1 bs output.1 :=
    fun bs hbs => ((mem_walks_leaving_iff hg _ _ _ bs).mp hbs).2.walk
  have hsum := sum_walks_leaving hg w hne
  have hcache : CofactorCache.Right g.loopTable config [] := fun _ _ h => nomatch h
  have hzero : r.value T ((none : Option (Expr α)).getD (Expr.literal Scalar.zero)) = .ok 0 := r.value_zero T
  obtain ⟨result, cofactors, hok, hnumerator⟩ := value_addPaths hg hw hconfig hne' hps hcache hzero
  rw [zero_add, hsum] at hnumerator
  have hdet : r.value T (g.loopTable.determinantOf g.loopTable.all config.simplifyConfig) =
      .ok (1 - g.flowMatrix w).det := by
    rw [SolverConfig.simplifyConfig, hconfig]
    exact value_determinantOf_all hg hw
  obtain ⟨s, hs, hd, hn, -, ht⟩ := mason_eq hg hok
  refine ⟨s, ?_, hd ▸ hdet, hn ▸ hnumerator, fun hy => ?_⟩
  · rw [solve_eq hg hmax input.2 output.2 hne', hs]
    rfl
  · rw [ht]
    refine value_transferFunction hconfig (hn ▸ hnumerator) (hd ▸ hdet) (fun hnone => ?_) hy
    rw [← hsum, List.map_eq_nil_iff.mp hnone, List.map_nil, List.sum_nil]

/-- **Mason's rule solves the flow equations.** The determinant is that of `1 - A`, the numerator is the entry of its
adjugate between input and output; for every assignment that solves the equations, the determinant times the value of
the output is the numerator, and unless the determinant is zero the transfer function has the value of the output. -/
theorem solve_exact (hg : g.Reachable) (r : Reading α K) (T : Bindings K) (w : Branch α → K)
    (hw : ∀ b ∈ g.liveBranches, r.value T b.weight = .ok (w b)) (config : SolverConfig)
    (hconfig : config.simplify = false) (hmax : g.nodeCount ≤ config.maxNodes) {input output : NodeId}
    (hi : input ∈ g.liveIds) (ho : output ∈ g.liveIds) (hne : input ≠ output) :
    ∃ s, g.solve input output config = .ok s ∧
      r.value T s.determinant = .ok (1 - g.flowMatrix w).det ∧
      r.value T s.numerator = .ok ((1 - g.flowMatrix w).adjugate ⟨input, hi⟩ ⟨output, ho⟩) ∧
      ∀ x : NodeId → K, g.Flow w input x →
        (1 - g.flowMatrix w).det * x output = (1 - g.flowMatrix w).adjugate ⟨input, hi⟩ ⟨output, ho⟩ ∧
        ((1 - g.flowMatrix w).det ≠ 0 → r.value T s.transferFunction = .ok (x output)) := by
  have hwf := hg.wellFormed
  have hne' : (⟨input, hi⟩ : g.LiveNode) ≠ ⟨output, ho⟩ := fun h => hne (congrArg Subtype.val h)
  obtain ⟨s, hs, hdet, hnum, htransfer⟩ := solve_value hwf hw hconfig hmax hne'
  refine ⟨s, hs, hdet, hnum, fun x hx => ?_⟩
  have hcramer := det_mul_of_vecMul (hx.vecMul hwf hi) ⟨output, ho⟩
  refine ⟨hcramer, fun hzero => ?_⟩
  rw [htransfer hzero, ← hcramer, mul_div_cancel_left₀ _ hzero]

/-- The nodes of `feedback`, numbered. -/
def feedbackNode (α : Type) [Scalar α] : Fin 2 ≃ (feedback α).LiveNode where
  toFun i := ⟨⟨i⟩, by rw [liveIds_feedback]; fin_cases i <;> simp⟩
  invFun v := if v.1 = ⟨0⟩ then 0 else 1
  left_inv i := by fin_cases i <;> rfl
  right_inv v := by
    obtain ⟨v, hv⟩ := v
    rw [liveIds_feedback, List.mem_pair] at hv
    rcases hv with rfl | rfl <;> rfl

/-- Two branches there and one back make `1 - 2`. -/
theorem det_feedback : (1 - (feedback ℚ).flowMatrix fun _ => (1 : ℚ)).det = -1 := by
  rw [← det_submatrix_equiv_self (feedbackNode ℚ), det_fin_two]
  norm_num [flowMatrix, liveBranches_feedback, feedbackNode, one_apply]

/-- Two nodes that feed each other, the first with twice the weight: by `1 - 2` the first has -1 and the second -2. -/
theorem solve_exact_feedback :
    ∃ s, (feedback ℚ).solve ⟨0⟩ ⟨1⟩ { simplify := false } = .ok s ∧
      Reading.rational.value {} s.determinant = .ok (-1) ∧ Reading.rational.value {} s.numerator = .ok 2 ∧
      Reading.rational.value {} s.transferFunction = .ok (-2) := by
  have hw : ∀ b ∈ (feedback ℚ).liveBranches, Reading.rational.value {} b.weight = .ok 1 := by
    simpa [liveBranches_feedback] using Reading.rational.value_one {}
  have hx : (feedback ℚ).Flow (fun _ => (1 : ℚ)) ⟨0⟩ fun v => if v = ⟨0⟩ then -1 else -2 := by
    unfold Flow
    rw [liveIds_feedback, liveBranches_feedback]
    norm_num
  have hi : ⟨0⟩ ∈ (feedback ℚ).liveIds := by simp [liveIds_feedback]
  have ho : ⟨1⟩ ∈ (feedback ℚ).liveIds := by simp [liveIds_feedback]
  have hmax : (feedback ℚ).nodeCount ≤ 64 := by
    rw [feedback_eq]
    decide
  obtain ⟨s, hs, hdet, hnum, hflow⟩ := solve_exact (feedback_reachable ℚ) Reading.rational {} (fun _ => 1) hw
    { simplify := false } rfl hmax hi ho (by decide)
  obtain ⟨hcramer, htransfer⟩ := hflow _ hx
  rw [det_feedback] at hdet hcramer htransfer
  refine ⟨s, hs, hdet, ?_, htransfer (by norm_num)⟩
  rw [hnum, ← hcramer]
  norm_num

end SignalFlow.Graph
