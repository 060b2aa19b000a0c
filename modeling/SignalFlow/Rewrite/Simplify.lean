import SignalFlow.Rewrite.Fold
import SignalFlow.Rewrite.Identity
import SignalFlow.Rewrite.Chain
import SignalFlow.Rewrite.LikeTerms
import SignalFlow.Rewrite.Quotient

/-!
# Simplification

`Expr.simplify` runs the enabled passes in rounds until a round makes no rewrite or the limit of rounds is reached.
-/

namespace SignalFlow

/-- **Which passes simplification runs**, and for how many rounds at most. -/
structure SimplifyConfig where
  maxPasses : Nat := 16
  foldConstants : Bool := true
  eliminateIdentities : Bool := true
  normalizeChains : Bool := true
  collectTerms : Bool := true

/-- **What simplification did.** -/
structure SimplifyReport where
  /-- Rounds run. -/
  passes : Nat
  /-- Rewrites in all rounds. -/
  rewrites : Nat
  /-- Whether the last round changed nothing. -/
  converged : Bool
deriving DecidableEq, Repr

namespace Expr

variable {α : Type} [Scalar α]

/-- Runs a pass if it is enabled. -/
def runIf (enabled : Bool) (pass : Expr α → Expr α × Nat) (r : Expr α × Nat) : Expr α × Nat :=
  if enabled then
    let (e, n) := pass r.1
    (e, r.2 + n)
  else r

/-- One round of the enabled passes, and the number of rewrites it made. -/
def simplifyRound (config : SimplifyConfig) (e : Expr α) : Expr α × Nat :=
  (e, 0)
    |> runIf config.foldConstants Expr.foldConstants
    |> runIf config.eliminateIdentities Expr.eliminateIdentities
    |> runIf config.normalizeChains Expr.normalizeChains
    |> runIf config.collectTerms Expr.collectTerms

/-- Rounds, as long as some are left and the last one made a rewrite. -/
def simplifyRounds (config : SimplifyConfig) : Nat → Expr α → SimplifyReport → Expr α × SimplifyReport
  | 0, e, report => (e, report)
  | fuel + 1, e, report =>
    match simplifyRound config e with
    | (e, 0) => (e, { report with passes := report.passes + 1, converged := true })
    | (e, n + 1) =>
      simplifyRounds config fuel e
        { report with passes := report.passes + 1, rewrites := report.rewrites + (n + 1) }

/-- **Simplifies an expression.** -/
def simplify (e : Expr α) (config : SimplifyConfig) : Expr α × SimplifyReport :=
  simplifyRounds config config.maxPasses e ⟨0, 0, false⟩

end Expr

end SignalFlow
