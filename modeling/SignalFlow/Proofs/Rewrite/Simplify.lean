import SignalFlow.Proofs.Rewrite.LikeTerms
import SignalFlow.Rewrite.Simplify

/-!
# Simplification preserves values

Each pass keeps what an expression yields, a round runs passes one after the other, and simplification runs rounds
(`keeps_simplifyRound`, `keeps_simplifyRounds`). So an expression that is regular and evaluates to a number still is and
does after `simplify`, for any selection of passes and any number of rounds (`simplify_exact`).
-/

namespace SignalFlow.Expr

open SignalFlow.Tree Rewrite

variable {K : Type} [Field K] [Scalar K] {load : String → Except ExprError K}

/-- A pass that keeps what trees yield does so if it is run on a condition. -/
theorem keeps_runIf {pass : Expr K → Expr K × Nat} (hpass : ∀ e : Expr K, Keeps load e.tree (pass e).1.tree)
    (enabled : Bool) (r : Expr K × Nat) : Keeps load r.1.tree (runIf enabled pass r).1.tree := by
  unfold runIf
  split
  · exact hpass r.1
  · exact Keeps.refl _

variable [LinearOrder K] [IsStrictOrderedRing K] [Scalar.OrderedField K]

/-- **A round keeps what an expression yields.** -/
theorem keeps_simplifyRound (config : SimplifyConfig) (e : Expr K) :
    Keeps load e.tree (simplifyRound config e).1.tree := by
  have hfold : ∀ e : Expr K, Keeps load e.tree e.foldConstants.1.tree := fun e => keeps_fold e.tree _
  have hreduce : ∀ e : Expr K, Keeps load e.tree e.eliminateIdentities.1.tree := fun e => keeps_reduce e.tree _
  have hturn : ∀ e : Expr K, Keeps load e.tree e.normalizeChains.1.tree := fun e => keeps_sweepUntil maxSweeps e.tree 0
  have hcollect : ∀ e : Expr K, Keeps load e.tree e.collectTerms.1.tree := fun e => keeps_collect false e.tree e.slots 0
  have h₁ := keeps_runIf hfold config.foldConstants (e, 0)
  have h₂ := keeps_runIf hreduce config.eliminateIdentities (runIf config.foldConstants Expr.foldConstants (e, 0))
  exact ((h₁.trans h₂).trans (keeps_runIf hturn config.normalizeChains _)).trans
    (keeps_runIf hcollect config.collectTerms _)

/-- **Rounds keep what an expression yields**, however many there are. -/
theorem keeps_simplifyRounds (config : SimplifyConfig) (fuel : Nat) (e : Expr K) (report : SimplifyReport) :
    Keeps load e.tree (simplifyRounds config fuel e report).1.tree := by
  induction fuel generalizing e report with
  | zero => exact Keeps.refl _
  | succ fuel ih =>
    have hround : Keeps load e.tree (simplifyRound config e).1.tree := keeps_simplifyRound config e
    rw [simplifyRounds]
    split
    · next h => rwa [h] at hround
    · next h =>
      rw [h] at hround
      exact hround.trans (ih _ _)

theorem keeps_simplify (config : SimplifyConfig) (e : Expr K) : Keeps load e.tree (e.simplify config).1.tree :=
  keeps_simplifyRounds config config.maxPasses e ⟨0, 0, false⟩

/-- **Simplification preserves values.** In an ordered field, an expression that evaluates without infinity and without
a quotient by zero still does when it is simplified, and its value is the same. -/
theorem simplify_exact (e : Expr K) (config : SimplifyConfig) (T : Bindings K) (v : K)
    (hregular : e.tree.Regular T.valueOf) (hvalue : e.evaluate T = .ok v) :
    (e.simplify config).1.tree.Regular T.valueOf ∧ (e.simplify config).1.evaluate T = .ok v := by
  rw [evaluate_eq] at hvalue ⊢
  exact keeps_simplify config e v ⟨hregular, hvalue⟩

/-- `x / x + x` is 4 where `x` is 3, simplified or not. -/
theorem simplify_exact_quotient :
    let e : Expr Rational := binary .add (binary .div (var "x") (var "x")) (var "x")
    let T : Bindings Rational := ⟨[("x", .value 3)]⟩
    (e.simplify {}).1.tree.Regular T.valueOf ∧ (e.simplify {}).1.evaluate T = .ok 4 := by
  intro e T
  have hx : (var "x" : Expr Rational).tree.Yields T.valueOf 3 := yields_var.mpr (Bindings.valueOf_value rfl)
  have he : e.tree.Yields T.valueOf 4 := by
    have hthree : (3 : Rational) ≠ 0 := three_ne_zero
    have hsum : (4 : Rational) = 1 + 3 := by norm_num
    have hquotient : (binary .div (var "x") (var "x") : Expr Rational).tree.Yields T.valueOf 1 :=
      yields_binary.mpr ⟨3, 3, hx, hx, hthree, (div_self hthree).symm⟩
    exact yields_binary.mpr ⟨1, 3, hquotient, hx, trivial, hsum⟩
  exact simplify_exact e {} T 4 he.1 (by rw [evaluate_eq]; exact he.2)

end SignalFlow.Expr
