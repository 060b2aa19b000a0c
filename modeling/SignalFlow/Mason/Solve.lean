import SignalFlow.Mason.Error
import SignalFlow.Mason.Determinant
import SignalFlow.Graph.Search

/-!
# Transfer functions

Mason's rule gives the transfer function between two nodes as `(Σ P_k D_k) / D`: the gains of the forward paths, each
times its cofactor, over the determinant. The cofactor of a path is the determinant over the loops that share no node
with it; paths that share no node with the same loops share their cofactor, which is expanded once.
-/

namespace SignalFlow

/-- **How a graph is solved.** -/
structure SolverConfig where
  /-- Graphs with more nodes are refused. -/
  maxNodes : Nat := 64
  /-- Whether partial results are simplified. -/
  simplify : Bool := true
  /-- The limit of rounds of each simplification. -/
  maxSimplifyPasses : Nat := 16

/-- The simplification of partial results, if there is one. -/
def SolverConfig.simplifyConfig (c : SolverConfig) : Option SimplifyConfig :=
  if c.simplify then some { maxPasses := c.maxSimplifyPasses } else none

/-- **A transfer function** with the terms it is made of. -/
structure Solution (α : Type) where
  transferFunction : Expr α
  numerator : Expr α
  determinant : Expr α
  /-- One cofactor for every forward path. -/
  cofactors : List (Expr α)
  paths : List Path
  loops : List Path

namespace Graph

variable {α : Type} [Scalar α]

/-- The result of a graph operation as one of the solver. -/
def asSolver {β : Type} : Except GraphError β → Except SolverError β
  | .ok x => .ok x
  | .error e => .error (.graph e)

/-- **The determinant of a graph** over a list of its loops. -/
def determinant (g : Graph α) (loops : List Path) (config : SolverConfig) : Except SolverError (Expr α) := do
  let table ← asSolver (LoopTable.ofLoops g loops)
  return table.determinantOf table.all config.simplifyConfig

/-- The determinants expanded so far, by the loops that they are over. -/
abbrev CofactorCache (α : Type) := List (List Nat × Expr α)

/-- The determinant over some loops, from the cache if it is there, and the cache with it. -/
def cofactorOf (table : LoopTable α) (config : SolverConfig) (cache : CofactorCache α) (members : List Nat) :
    Expr α × CofactorCache α :=
  match cache.lookup members with
  | some cofactor => (cofactor, cache)
  | none =>
    let cofactor := table.determinantOf members config.simplifyConfig
    (cofactor, (members, cofactor) :: cache)

/-- The term of a path in the numerator; a cofactor that is the literal 1 is left out. -/
def pathTerm (gain cofactor : Expr α) : Expr α :=
  if cofactor.tree.isLiteral Scalar.one then gain else Expr.binary .mul gain cofactor

/-- Adds a term to the numerator so far. -/
def addTerm (config : SolverConfig) (numerator : Option (Expr α)) (term : Expr α) : Expr α :=
  LoopTable.simplified config.simplifyConfig
    (match numerator with
    | none => term
    | some sum => Expr.binary .add sum term)

/-- The numerator after some more paths, and their cofactors. -/
def addPaths (g : Graph α) (table : LoopTable α) (config : SolverConfig) (cache : CofactorCache α)
    (numerator : Option (Expr α)) : List Path → Except GraphError (Option (Expr α) × List (Expr α))
  | [] => .ok (numerator, [])
  | p :: rest => do
    let (cofactor, cache) := cofactorOf table config cache (table.avoiding (← p.nodes g))
    let numerator := addTerm config numerator (pathTerm (← p.gain g) cofactor)
    let (numerator, cofactors) ← g.addPaths table config cache (some numerator) rest
    return (numerator, cofactor :: cofactors)

/-- The quotient of a numerator and a determinant, with constants folded and identities applied if asked for. -/
def quotient (config : SolverConfig) (numerator determinant : Expr α) : Expr α :=
  let t := Expr.binary .div numerator determinant
  if config.simplify then t.foldConstants.1.eliminateIdentities.1 else t

/-- **Mason's rule** for enumerated paths and loops. Without a forward path the transfer function is zero. -/
def mason (g : Graph α) (paths loops : List Path) (config : SolverConfig) : Except GraphError (Solution α) := do
  let table ← LoopTable.ofLoops g loops
  let determinant := table.determinantOf table.all config.simplifyConfig
  let (numerator?, cofactors) ← g.addPaths table config [] none paths
  let numerator := numerator?.getD (Expr.literal Scalar.zero)
  let transferFunction :=
    if paths.isEmpty then Expr.literal Scalar.zero else quotient config numerator determinant
  return { transferFunction, numerator, determinant, cofactors, paths, loops }

/-- **Solves a graph** between two nodes. -/
def solve (g : Graph α) (input output : NodeId) (config : SolverConfig) : Except SolverError (Solution α) := do
  if config.maxNodes < g.nodeCount then throw (.tooLarge g.nodeCount config.maxNodes)
  let paths ← asSolver (g.forwardPaths input output)
  let loops ← asSolver g.loops
  asSolver (g.mason paths loops config)

/-- The node of a name, or an error. -/
def nodeNamed (g : Graph α) (name : String) : Except SolverError NodeId :=
  match g.find? name with
  | some i => .ok i
  | none => .error (.unknownNode name)

/-- **Solves a graph** between two nodes given by name. -/
def solveNamed (g : Graph α) (input output : String) (config : SolverConfig) : Except SolverError (Solution α) := do
  let i ← g.nodeNamed input
  let o ← g.nodeNamed output
  g.solve i o config

end Graph

end SignalFlow
