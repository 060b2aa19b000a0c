import SignalFlow.Proofs.Double.Absorbing
import SignalFlow.Proofs.Rewrite.Infinity
import SignalFlow.Proofs.Rewrite.Rounds

/-!
# What is no finite number stays none

Every pass of a round spares the defects of an expression, so simplification does, with any passes and any number of
rounds (`spares_simplify`): an expression that diverges has no finite value when it is simplified
(`simplify_undefined`). In a sum of which like terms are collected, infinity and literal factors that are not finite
count, since neither cancels. A quotient of zeros does not: it is dropped from such a sum, because a term with the
coefficient zero stays only if infinity occurs in it (`simplify_zero_quotient`).
-/

namespace SignalFlow.Expr

open SignalFlow.Tree Rewrite

section Passes

variable {α : Type} [Scalar α] [Scalar.Absorbing α] {collects : Bool}

/-- What an expression evaluates to has the defects of its tree. -/
theorem defect_le_of_evaluate {e : Expr α} {T : Bindings α} {v : α} (hv : e.evaluate T = .ok v) :
    e.tree.term.defect collects ≤ Scalar.defect v := by
  rw [evaluate_eq, ← value_relabel T.valueOf fun _ => ()] at hv
  exact defect_le_of_value hv

/-- **Each enabled pass spares the defects of a tree.** -/
theorem spares_pass {config : SimplifyConfig} {p : Pass} (hp : p ∈ config.passes) (t : Term α) :
    Spares config.collectTerms t (p.onTerm t).1 := by
  cases p with
  | foldConstants => exact spares_rewriteUp spares_fold false t
  | eliminateIdentities => exact spares_rewriteUp spares_reduce false t
  | normalizeChains => exact spares_sweepUntil maxSweeps t 0
  | collectTerms =>
    have hcollects : config.collectTerms = true := by simpa [SimplifyConfig.passes] using hp
    rw [hcollects]
    exact spares_rewriteUp spares_collect false t
  | eliminateQuotients => simp [SimplifyConfig.passes] at hp

/-- **Simplification spares the defects of an expression.** -/
theorem spares_simplify (config : SimplifyConfig) (e : Expr α) :
    Spares config.collectTerms e.tree.term (e.simplify config).1.tree.term :=
  invariant_simplifyRounds (fun _ hp t ht => ht.trans (spares_pass hp t)) config.maxPasses _ (.refl e.tree.term)

/-- **What a simplified expression evaluates to has the defects of the expression.** -/
theorem defect_le_of_simplify {e : Expr α} {config : SimplifyConfig} {T : Bindings α} {v : α}
    (hv : (e.simplify config).1.evaluate T = .ok v) : e.tree.term.defect config.collectTerms ≤ Scalar.defect v :=
  (spares_simplify config e).defect.trans (defect_le_of_evaluate hv)

end Passes

/-- **Simplification does not make a finite number of what is none.** An expression diverges if infinity, an infinite
literal, a NaN, a divisor that vanishes or the like decides its value and no power hides it. Such an expression is not
finite when it is evaluated, and not finite either when it is simplified before, whichever passes are enabled; if it
vanishes as well, it is no number both times. If like terms are collected, only what cannot cancel counts in a sum:
infinity, and literal factors that are not finite. -/
theorem simplify_undefined (e : Expr Double) (config : SimplifyConfig) (T : Bindings Double)
    (h : (e.tree.term.defect config.collectTerms).diverges) :
    (∀ v, e.evaluate T = .ok v →
      Scalar.isFinite v = false ∧ ((e.tree.term.defect config.collectTerms).vanishes → Scalar.isNaN v = true)) ∧
    ∀ v, (e.simplify config).1.evaluate T = .ok v →
      Scalar.isFinite v = false ∧ ((e.tree.term.defect config.collectTerms).vanishes → Scalar.isNaN v = true) := by
  have hdefect : ∀ v : Double, e.tree.term.defect config.collectTerms ≤ Scalar.defect v →
      Scalar.isFinite v = false ∧ ((e.tree.term.defect config.collectTerms).vanishes → Scalar.isNaN v = true) :=
    fun v hle => ⟨hle.diverges h, fun hvanishes =>
      Scalar.Absorbing.isNaN_of_undefined ⟨hle.vanishes hvanishes, hle.diverges h⟩⟩
  exact ⟨fun v hv => hdefect v (defect_le_of_evaluate hv), fun v hv => hdefect v (defect_le_of_simplify hv)⟩

/-- `(1/0) / (2/0)` is no number, simplified or not, and `1e999 - 1e999` is not finite, although its terms are alike. -/
theorem simplify_undefined_quotient_difference :
    let pole (n : Nat) : Expr Double := binary .div (literal (Scalar.ofDecimal n 0)) (literal Scalar.zero)
    let quotient := binary .div (pole 1) (pole 2)
    let infinite : Expr Double := literal (Scalar.ofDecimal 1 999)
    let difference := binary .sub infinite infinite
    ((quotient.tree.term.defect true).diverges ∧ (∀ v, quotient.evaluate {} = .ok v → Scalar.isNaN v = true) ∧
      ∀ v, (quotient.simplify {}).1.evaluate {} = .ok v → Scalar.isNaN v = true) ∧
    (difference.tree.term.defect true).diverges ∧
      ∀ v, (difference.simplify {}).1.evaluate {} = .ok v → Scalar.isFinite v = false := by
  intro pole quotient infinite difference
  have hzero : Scalar.isZero (Scalar.zero : Double) = true := by rfl
  have hpole : ∀ n, ((pole n).tree.term.defect true).diverges := fun n => .inr (.inl hzero)
  have hdiverges : (quotient.tree.term.defect true).diverges := .inl (hpole 1)
  have hvanishes : (quotient.tree.term.defect true).vanishes := .inr (hpole 2)
  have hquotient := simplify_undefined quotient {} {} hdiverges
  have hinfinite : Scalar.isFinite (Scalar.ofDecimal 1 999 : Double) = false := by rfl
  have hendless : (difference.tree.term.defect true).diverges := .inr (.inl hinfinite)
  have hdifference := simplify_undefined difference {} {} hendless
  exact ⟨⟨hdiverges, fun v hv => (hquotient.1 v hv).2 hvanishes, fun v hv => (hquotient.2 v hv).2 hvanishes⟩,
    hendless, fun v hv => (hdifference.2 v hv).1⟩

/-! ## Quotients of zeros -/

/-- `0/0` -/
abbrev pole : Term Double := .binary () .div (.literal () Scalar.zero) (.literal () Scalar.zero)

/-- `1 + 0/0` -/
abbrev onePlusPole : Term Double := .binary () .add (.literal () Scalar.one) pole

/-- A quotient of zeros is a term with the coefficient zero, and it has no infinite factor. -/
theorem collectSum_onePlusPole : collectSum onePlusPole = .literal () Scalar.one := by
  have hread : readTerms onePlusPole Scalar.one =
      [readProduct (.literal () Scalar.one) Scalar.one, readProduct pole Scalar.one] := by
    rw [readTerms, readTerms_of_not_additive rfl (by rfl), readTerms_of_not_additive rfl (by rfl)]
    rfl
  have hsorted : ∀ t ∈ [readProduct (.literal () Scalar.one) Scalar.one, readProduct pole Scalar.one],
      sortFactors t.factors = t.factors := by
    intro t ht
    rcases List.mem_pair.mp ht with rfl | rfl
    · exact (sortFactors_perm []).eq_nil
    · exact List.perm_singleton.mp (sortFactors_perm _)
  have hstays : [readProduct (.literal () Scalar.one) Scalar.one, readProduct pole Scalar.one].filter Summand.stays =
      [readProduct (.literal () Scalar.one) Scalar.one] := by rfl
  rw [collectSum, hread, mergeTerms_eq hsorted (List.pairwise_pair.mpr rfl), hstays]
  rfl

/-- A literal has nothing to simplify. -/
theorem onTerm_literal {config : SimplifyConfig} {p : Pass} (hp : p ∈ config.passes) (v : Double) :
    (p.onTerm (.literal () v)).1 = .literal () v := by
  cases p with
  | foldConstants | eliminateIdentities | collectTerms => rfl
  | normalizeChains =>
    change (sweepUntil (255 + 1) (.literal () v) 0).1 = _
    rw [sweepUntil, sweep]
  | eliminateQuotients => simp [SimplifyConfig.passes] at hp

/-- Only collecting like terms changes `1 + 0/0`. -/
theorem simplifyRound_onePlusPole {e : Expr Double} (he : e.tree.term = onePlusPole) :
    (simplifyRound {} e).1.tree.term = .literal () Scalar.one := by
  have hfold : (rewriteUp foldRule false onePlusPole).1 = onePlusPole := by rfl
  have hreduce : (rewriteUp reduceRule false onePlusPole).1 = onePlusPole := by rfl
  have hsweep : sweep onePlusPole = (onePlusPole, 0) := by
    rw [onePlusPole, sweep_binary]
    dsimp only [turnAll, turn?]
    rw [sweep_binary]
    dsimp only [turnAll]
    rw [sweep, sweep]
    rfl
  have hturns : (sweepUntil (255 + 1) onePlusPole 0).1 = onePlusPole := by
    rw [sweepUntil, hsweep]
  have hcollect : (rewriteUp collectRule false onePlusPole).1 = .literal () Scalar.one := by
    change (Rule.count collectRule false onePlusPole).1 = _
    rw [Rule.count, collectRule, collectSum_onePlusPole]
    rfl
  rw [simplifyRound_term, he]
  change (rewriteUp collectRule false (sweepUntil (255 + 1) (rewriteUp reduceRule false
    (rewriteUp foldRule false onePlusPole).1).1 0).1).1 = _
  rw [hfold, hreduce, hturns, hcollect]

/-- **Collecting like terms makes a number of a quotient of zeros**: `1 + 0/0` is no number, but simplified it is. -/
theorem simplify_zero_quotient :
    let e : Expr Double := binary .add (literal Scalar.one) (binary .div (literal Scalar.zero) (literal Scalar.zero))
    (∃ v, e.evaluate {} = .ok v ∧ Scalar.isNaN v = true) ∧
      ∃ v, (e.simplify {}).1.evaluate {} = .ok v ∧ Scalar.isFinite v = true := by
  intro e
  have hvalue : ∃ v, e.evaluate {} = .ok v ∧ Scalar.isNaN v = true := by
    rw [evaluate_eq]
    exact ⟨_, rfl, by rfl⟩
  have hround : (simplifyRound {} e).1.tree.term = .literal () Scalar.one := simplifyRound_onePlusPole rfl
  have hsimplified : (e.simplify {}).1.tree.term = .literal () Scalar.one := by
    have hliteral : ∀ p ∈ SimplifyConfig.passes {}, ∀ t : Term Double, t = .literal () Scalar.one →
        (p.onTerm t).1 = .literal () Scalar.one := fun p hp t ht => ht ▸ onTerm_literal hp Scalar.one
    change (simplifyRounds {} (15 + 1) e _).1.tree.term = _
    rw [simplifyRounds]
    split
    · next h => rwa [h] at hround
    · next h =>
      rw [h] at hround
      exact invariant_simplifyRounds hliteral _ _ hround
  refine ⟨hvalue, Scalar.one, ?_, by rfl⟩
  rw [evaluate_eq, ← value_relabel _ fun _ => ()]
  exact congrArg (value _) hsimplified

end SignalFlow.Expr
