import SignalFlow.Proofs.Mason.Transfer
import SignalFlow.Proofs.Rewrite.Simplify

/-!
# Solving with simplification

A graph is solved twice, once raw and once with partial results simplified. The two runs go through the same levels and
the same paths, and every partial result of the second run yields what its counterpart of the first one does
(`keeps_determinantOf`, `keeps_addPaths`). Hence numerators, determinants and cofactors agree in value, and so do the
transfer functions where the determinant is not zero (`solve_simplified`).
-/

namespace SignalFlow

/-! ## Paths -/

/-- Between two live nodes a graph of admitted size is solved from the same paths and loops, however it is solved. -/
theorem Graph.exists_paths {α : Type} [Scalar α] {g : Graph α} (hg : g.WellFormed) {input output : NodeId}
    (hi : input ∈ g.liveIds) (ho : output ∈ g.liveIds) :
    ∃ ps : List (List (Branch α)), (∀ bs ∈ ps, ∀ b ∈ bs, b ∈ g.liveBranches) ∧
      ∀ config : SolverConfig, g.nodeCount ≤ config.maxNodes → g.solve input output config =
        asSolver (g.mason (ps.map pathOf) ((g.loopWalks [] g.liveIds).map pathOf) config) := by
  by_cases hne : input = output
  · subst hne
    refine ⟨[], fun _ h => absurd h List.not_mem_nil, fun config hmax => ?_⟩
    obtain ⟨n, hn⟩ := hg.mem_liveIds.mp hi
    have hpaths : g.forwardPaths input input = .ok [] := by
      unfold forwardPaths
      rw [node_eq_ok_iff.mpr hn]
      exact if_pos rfl
    unfold solve
    rw [if_neg (Nat.not_lt.mpr hmax), hpaths, loops_eq hg]
    rfl
  · refine ⟨_, fun bs hbs b hb => ?_, fun config hmax => solve_eq hg hmax hi ho hne⟩
    exact ((mem_walks_leaving_iff hg _ _ _ bs).mp hbs).2.walk.mem_liveBranches hb

/-! ## Expressions that yield the same -/

variable {K : Type} [Field K] [Scalar K] {load : String → Except ExprError K}

/-- **The second expression yields whatever the first one does**, with any variables. -/
def Expr.Keeps (e f : Expr K) : Prop := ∀ load, Tree.Keeps load e.tree f.tree

namespace Expr.Keeps

theorem refl (e : Expr K) : Keeps e e := fun _ => Tree.Keeps.refl e.tree

theorem trans {e f g : Expr K} (h : Keeps e f) (h' : Keeps f g) : Keeps e g :=
  fun load => (h load).trans (h' load)

/-- Operands may be replaced by ones that yield the same. -/
theorem binary {op : BinaryOp} {e e' f f' : Expr K} (he : Keeps e e') (hf : Keeps f f') :
    Keeps (.binary op e f) (.binary op e' f') := by
  intro load v hv
  obtain ⟨x, y, hx, hy, hadmits, rfl⟩ := Expr.yields_binary.mp hv
  exact Expr.yields_binary.mpr ⟨x, y, he load x hx, hf load y hy, hadmits, rfl⟩

end Expr.Keeps

/-- **An expression evaluates to a number**, meeting neither infinity nor a quotient by zero. -/
def Expr.Evaluates (e : Expr K) (T : Bindings K) (v : K) : Prop := e.tree.Regular T.valueOf ∧ e.evaluate T = .ok v

theorem Expr.evaluates_iff {e : Expr K} {T : Bindings K} {v : K} : e.Evaluates T v ↔ e.tree.Yields T.valueOf v := by
  rw [Evaluates, Expr.evaluate_eq, Tree.Yields]

/-- What evaluates still does, to the same number. -/
theorem Expr.Keeps.evaluates {e f : Expr K} (h : Expr.Keeps e f) {T : Bindings K} (v : K) (hv : e.Evaluates T v) :
    f.Evaluates T v :=
  Expr.evaluates_iff.mpr (h _ v (Expr.evaluates_iff.mp hv))

/-! ## Terms and quotients -/

variable [LinearOrder K] [Scalar.OrderedField K]

/-- The literal 1 yields 1. -/
theorem Expr.yields_of_isOne {e : Expr K} (h : e.tree.isLiteral Scalar.one = true) : e.tree.Yields load 1 :=
  Scalar.OrderedField.one_eq (K := K) ▸ Rewrite.yields_of_isLiteral h

/-- The term of a path yields its gain times its cofactor, whether or not the cofactor is written. -/
theorem Graph.yields_pathTerm {gain cofactor : Expr K} {x y : K} (hgain : gain.tree.Yields load x)
    (hcofactor : cofactor.tree.Yields load y) : (pathTerm gain cofactor).tree.Yields load (x * y) := by
  unfold pathTerm
  split
  · next hone => rwa [hcofactor.unique (Expr.yields_of_isOne hone), mul_one]
  · exact Expr.yields_binary.mpr ⟨x, y, hgain, hcofactor, trivial, (Scalar.Exact.mul_eq x y).symm⟩

/-- The term of a path yields the same with another cofactor that does; the one or the other may be left out. -/
theorem Graph.keeps_pathTerm (gain : Expr K) {cofactor cofactor' : Expr K}
    (h : Expr.Keeps cofactor cofactor') :
    Expr.Keeps (pathTerm gain cofactor) (pathTerm gain cofactor') := by
  intro load v hv
  unfold pathTerm at hv
  split at hv
  · next hone =>
    rw [← mul_one v]
    exact yields_pathTerm hv (h load 1 (Expr.yields_of_isOne hone))
  · obtain ⟨x, y, hx, hy, -, rfl⟩ := Expr.yields_binary.mp hv
    have hmul : BinaryOp.apply .mul x y = x * y := Scalar.Exact.mul_eq x y
    rw [hmul]
    exact yields_pathTerm hx (h load y hy)

/-- The quotient yields the quotient of the numbers. -/
theorem Graph.yields_quotient (raw : SolverConfig) (hraw : raw.simplify = false) {num det : Expr K} {x y : K}
    (hx : num.tree.Yields load x) (hy : det.tree.Yields load y) (hzero : y ≠ 0) :
    (quotient raw num det).tree.Yields load (x / y) := by
  unfold quotient
  rw [if_neg (by simp [hraw])]
  exact Expr.yields_binary.mpr ⟨x, y, hx, hy, hzero, (Scalar.ExactField.div_eq x y hzero).symm⟩

/-- The quotient yields the same for operands that do, with its constants folded and identities applied. -/
theorem Graph.keeps_quotient (raw : SolverConfig) (hraw : raw.simplify = false) (config : SolverConfig)
    {num num' det det' : Expr K} (hnum : Expr.Keeps num num') (hdet : Expr.Keeps det det') :
    Expr.Keeps (quotient raw num det) (quotient config num' det') := by
  have hquotient : Expr.Keeps (.binary .div num det) (.binary .div num' det') := hnum.binary hdet
  unfold quotient
  rw [hraw]
  by_cases hsimplify : config.simplify = true
  · rw [if_pos hsimplify]
    exact fun load => ((hquotient load).trans (Rewrite.keeps_fold _ _)).trans (Rewrite.keeps_reduce _ _)
  · rw [if_neg hsimplify]
    exact hquotient

variable [IsStrictOrderedRing K]

/-! ## Determinants -/

namespace LoopTable

theorem keeps_simplified (config : Option SimplifyConfig) (e : Expr K) : Expr.Keeps e (simplified config e) := by
  cases config with
  | none => exact Expr.Keeps.refl e
  | some c => exact fun _ => Expr.keeps_simplify c e

/-- **The levels of a determinant**, added with and without simplification. -/
theorem keeps_addLevels (table : LoopTable K) (config : Option SimplifyConfig) (levels : List (List (List Nat)))
    (odd : Bool) {det det' : Expr K} (h : Expr.Keeps det det') :
    Expr.Keeps (table.addLevels none odd det levels) (table.addLevels config odd det' levels) := by
  induction levels generalizing odd det det' with
  | nil => exact h
  | cons level rest ih =>
    rw [addLevels, addLevels]
    cases table.levelSum? level with
    | none => exact h
    | some sum => exact ih (!odd) ((Expr.Keeps.binary h (Expr.Keeps.refl sum)).trans (keeps_simplified config _))

/-- **A determinant yields the same with simplification.** -/
theorem keeps_determinantOf (table : LoopTable K) (members : List Nat) (config : Option SimplifyConfig) :
    Expr.Keeps (table.determinantOf members none) (table.determinantOf members config) :=
  keeps_addLevels table config _ true (Expr.Keeps.refl _)

end LoopTable

namespace Graph

/-! ## Numerators -/

/-- A term is added to numerators that yield the same, with and without simplification. -/
theorem keeps_addTerm {raw : SolverConfig} (hraw : raw.simplify = false) (config : SolverConfig)
    {numerator numerator' : Option (Expr K)} (h : Option.Rel (Expr.Keeps) numerator numerator')
    {term term' : Expr K} (hterm : Expr.Keeps term term') :
    Expr.Keeps (addTerm raw numerator term) (addTerm config numerator' term') := by
  have hnone : raw.simplifyConfig = none := if_neg (by simp [hraw])
  unfold addTerm
  rw [hnone]
  cases h with
  | none => exact hterm.trans (LoopTable.keeps_simplified _ _)
  | some hsum => exact (hsum.binary hterm).trans (LoopTable.keeps_simplified _ _)

/-- **The paths of a numerator**, added with and without simplification: the numerators and the cofactors yield the
same. -/
theorem keeps_addPaths {g : Graph K} (hg : g.WellFormed) (raw : SolverConfig) (hraw : raw.simplify = false)
    (config : SolverConfig) {ps : List (List (Branch K))} (hps : ∀ bs ∈ ps, ∀ b ∈ bs, b ∈ g.liveBranches)
    {table : LoopTable K} {cache cache' : CofactorCache K} (hcache : CofactorCache.Right table raw cache)
    (hcache' : CofactorCache.Right table config cache') {numerator numerator' : Option (Expr K)}
    (h : Option.Rel (Expr.Keeps) numerator numerator') :
    ∃ result result' cofactors cofactors',
      g.addPaths table raw cache numerator (ps.map pathOf) = .ok (result, cofactors) ∧
      g.addPaths table config cache' numerator' (ps.map pathOf) = .ok (result', cofactors') ∧
      Option.Rel (Expr.Keeps) result result' ∧ List.Forall₂ (Expr.Keeps) cofactors cofactors' := by
  induction ps generalizing cache cache' numerator numerator' with
  | nil => exact ⟨numerator, numerator', [], [], rfl, rfl, h, .nil⟩
  | cons bs ps ih =>
    have hlive := hps bs List.mem_cons_self
    have hnone : raw.simplifyConfig = none := if_neg (by simp [hraw])
    set members := table.avoiding (Path.nodesOf bs) with hmembers
    set gain := Path.product (bs.map Branch.weight) with hgain
    obtain ⟨next, hcached, hnext⟩ := cofactorOf_of_right hcache members
    obtain ⟨next', hcached', hnext'⟩ := cofactorOf_of_right hcache' members
    set cofactor := table.determinantOf members raw.simplifyConfig with hcofactor
    set cofactor' := table.determinantOf members config.simplifyConfig with hcofactor'
    have hkeeps : Expr.Keeps cofactor cofactor' := by
      rw [hcofactor, hnone]
      exact LoopTable.keeps_determinantOf table members _
    have hsum := keeps_addTerm hraw config h (keeps_pathTerm gain hkeeps)
    obtain ⟨result, result', cofactors, cofactors', hok, hok', hresult, hcofactors⟩ :=
      ih (fun cs hcs => hps cs (List.mem_cons_of_mem _ hcs)) hnext hnext' (.some hsum)
    refine ⟨result, result', cofactor :: cofactors, cofactor' :: cofactors', ?_, ?_, hresult, .cons hkeeps hcofactors⟩
    · rw [List.map_cons, addPaths, Path.nodes_pathOf hg hlive, Path.gain_pathOf hg hlive]
      simp only [bind, Except.bind, ← hmembers, ← hgain, hcached, hok]
      rfl
    · rw [List.map_cons, addPaths, Path.nodes_pathOf hg hlive, Path.gain_pathOf hg hlive]
      simp only [bind, Except.bind, ← hmembers, ← hgain, hcached', hok']
      rfl

/-! ## The two runs -/

/-- **Simplifying while solving agrees with the raw expansion.** Both runs succeed, and numerators, determinants and
cofactors have the values of the raw run wherever it has values; so has the transfer function unless the determinant
is zero. -/
theorem solve_simplified {g : Graph K} (hg : g.Reachable) (config : SolverConfig)
    (hmax : g.nodeCount ≤ config.maxNodes) {input output : NodeId} (hi : input ∈ g.liveIds) (ho : output ∈ g.liveIds) :
    ∃ raw s, g.solve input output { config with simplify := false } = .ok raw ∧
      g.solve input output { config with simplify := true } = .ok s ∧ ∀ T : Bindings K,
        (∀ v, raw.numerator.Evaluates T v → s.numerator.Evaluates T v) ∧
        (∀ v, raw.determinant.Evaluates T v → s.determinant.Evaluates T v) ∧
        List.Forall₂ (fun c c' => ∀ v, c.Evaluates T v → c'.Evaluates T v) raw.cofactors s.cofactors ∧
        ∀ num det, raw.numerator.Evaluates T num → raw.determinant.Evaluates T det → det ≠ 0 →
          raw.transferFunction.Evaluates T (num / det) ∧ s.transferFunction.Evaluates T (num / det) := by
  have hwf := hg.wellFormed
  obtain ⟨ps, hps, hsolve⟩ := exists_paths hwf hi ho
  set rawConfig : SolverConfig := { config with simplify := false } with hrawConfig
  set simpConfig : SolverConfig := { config with simplify := true } with hsimpConfig
  have hcache : ∀ c : SolverConfig, CofactorCache.Right g.loopTable c [] := fun _ _ _ h => nomatch h
  obtain ⟨result, result', cofactors, cofactors', hok, hok', hresult, hcofactors⟩ :=
    keeps_addPaths hwf rawConfig rfl simpConfig hps (hcache _) (hcache _) (.none : Option.Rel Expr.Keeps _ _)
  obtain ⟨raw, hraw, hdet, hnum, hcof, htransfer⟩ := mason_eq hwf hok
  obtain ⟨s, hs, hdet', hnum', hcof', htransfer'⟩ := mason_eq hwf hok'
  have hkeepsDet : Expr.Keeps raw.determinant s.determinant := by
    rw [hdet, hdet']
    exact LoopTable.keeps_determinantOf _ _ _
  have hkeepsNum : Expr.Keeps raw.numerator s.numerator := by
    rw [hnum, hnum']
    cases hresult with
    | none => exact Expr.Keeps.refl _
    | some h => exact h
  have hkeepsTransfer : Expr.Keeps raw.transferFunction s.transferFunction := by
    rw [htransfer, htransfer']
    cases ps with
    | nil => exact Expr.Keeps.refl _
    | cons bs ps => exact keeps_quotient rawConfig rfl simpConfig hkeepsNum hkeepsDet
  refine ⟨raw, s, ?_, ?_, fun T => ⟨?_, ?_, ?_, ?_⟩⟩
  · rw [hsolve rawConfig hmax, hraw]
    rfl
  · rw [hsolve simpConfig hmax, hs]
    rfl
  · exact hkeepsNum.evaluates
  · exact hkeepsDet.evaluates
  · rw [hcof, hcof']
    exact hcofactors.imp fun _ _ h => h.evaluates
  · intro num det hvnum hvdet hzero
    have hquotient : raw.transferFunction.Evaluates T (num / det) := by
      rw [Expr.evaluates_iff] at hvnum hvdet ⊢
      rw [htransfer]
      cases ps with
      | nil =>
        cases hok
        rw [hnum] at hvnum
        have hnumZero : Scalar.zero = num := Tree.yields_literal.mp hvnum
        rw [← hnumZero, Scalar.OrderedField.zero_eq, zero_div]
        exact Tree.yields_literal.mpr rfl
      | cons bs ps => exact yields_quotient rawConfig rfl hvnum hvdet hzero
    exact ⟨hquotient, hkeepsTransfer.evaluates _ hquotient⟩

/-- Solved raw, the graph has the determinant and the cofactor `1 - b` and the numerator `a * (1 - b)`. -/
theorem solve_aside_raw :
    let det : Expr Rational := .binary .sub (.literal Scalar.one) (.var "b")
    let num : Expr Rational := .binary .mul (.var "a") det
    (aside Rational).solve ⟨0⟩ ⟨1⟩ { simplify := false } =
      .ok ⟨.binary .div num det, num, det, [det], [⟨[⟨0⟩]⟩], [⟨[⟨1⟩]⟩]⟩ := by
  intro det num
  unfold solve
  rw [forwardPaths_aside, loops_aside, aside_eq]
  rfl

/-- Where `a` is 3 and `b` is 2, the determinant is -1, the numerator -3 and the transfer function 3, simplified or
not. -/
theorem solve_simplified_aside :
    let T : Bindings Rational := ⟨[("a", .value 3), ("b", .value 2)]⟩
    ∃ raw s, (aside Rational).solve ⟨0⟩ ⟨1⟩ { simplify := false } = .ok raw ∧
      (aside Rational).solve ⟨0⟩ ⟨1⟩ { simplify := true } = .ok s ∧
      raw.determinant.Evaluates T (-1) ∧ s.determinant.Evaluates T (-1) ∧
      raw.numerator.Evaluates T (-3) ∧ s.numerator.Evaluates T (-3) ∧
      (∃ cofactor, s.cofactors = [cofactor] ∧ cofactor.Evaluates T (-1)) ∧
      raw.transferFunction.Evaluates T 3 ∧ s.transferFunction.Evaluates T 3 := by
  intro T
  have hi : ⟨0⟩ ∈ (aside Rational).liveIds := by simp [liveIds_aside]
  have ho : ⟨1⟩ ∈ (aside Rational).liveIds := by simp [liveIds_aside]
  have hmax : (aside Rational).nodeCount ≤ 64 := by
    rw [aside_eq]
    decide
  obtain ⟨raw, s, hraw, hs, hagree⟩ := solve_simplified (aside_reachable Rational) {} hmax hi ho
  obtain ⟨hnum, hdet, hcofactors, htransfer⟩ := hagree T
  cases hraw.symm.trans solve_aside_raw
  have ha : (Expr.var "a" : Expr Rational).tree.Yields T.valueOf 3 :=
    Tree.yields_var.mpr (Bindings.valueOf_value rfl)
  have hb : (Expr.var "b" : Expr Rational).tree.Yields T.valueOf 2 :=
    Tree.yields_var.mpr (Bindings.valueOf_value rfl)
  have hone : (Expr.literal Scalar.one : Expr Rational).tree.Yields T.valueOf 1 := Tree.yields_literal.mpr rfl
  have hdiff : (-1 : Rational) = 1 - 2 := by norm_num
  have hprod : (-3 : Rational) = 3 * -1 := by norm_num
  have hquotient : (-3 : Rational) / -1 = 3 := by norm_num
  have hvdet : (Expr.binary .sub (Expr.literal Scalar.one) (Expr.var "b") : Expr Rational).Evaluates T (-1) :=
    Expr.evaluates_iff.mpr (Expr.yields_binary.mpr ⟨1, 2, hone, hb, trivial, hdiff⟩)
  have hvnum : (Expr.binary .mul (Expr.var "a") (Expr.binary .sub (Expr.literal Scalar.one) (Expr.var "b")) :
      Expr Rational).Evaluates T (-3) :=
    Expr.evaluates_iff.mpr (Expr.yields_binary.mpr ⟨3, -1, ha, Expr.evaluates_iff.mp hvdet, trivial, hprod⟩)
  obtain ⟨cofactor, rest, hcofactor, hrest, hs'⟩ := List.forall₂_cons_left_iff.mp hcofactors
  rw [List.forall₂_nil_left_iff.mp hrest] at hs'
  have hvtransfer := htransfer (-3) (-1) hvnum hvdet (by norm_num)
  rw [hquotient] at hvtransfer
  exact ⟨_, s, hraw, hs, hvdet, hdet _ hvdet, hvnum, hnum _ hvnum, ⟨cofactor, hs', hcofactor _ hvdet⟩,
    hvtransfer.1, hvtransfer.2⟩

end Graph

end SignalFlow
