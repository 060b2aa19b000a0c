import SignalFlow.Graph.Path
import SignalFlow.Rewrite.Simplify

/-!
# Determinants

The determinant of a graph is `1 - Σ L_i + Σ L_i L_j - …`: over the sets of loops that pairwise share no node, the
products of their gains, those of odd sets subtracted and those of even sets added. The sets are grown level by level,
from each set the larger ones by one loop of higher index.
-/

namespace SignalFlow

/-- **A loop** as the determinant needs it: its gain and its nodes. -/
structure LoopData (α : Type) where
  gain : Expr α
  nodes : List NodeId

/-- **The loops of a graph** by index. -/
abbrev LoopTable (α : Type) := Array (LoopData α)

namespace LoopTable

variable {α : Type}

/-- The nodes of a loop; an index without a loop has none. -/
def nodesOf (table : LoopTable α) (i : Nat) : List NodeId := (table[i]?.map LoopData.nodes).getD []

/-- **Whether two loops have a node in common.** -/
def touch (table : LoopTable α) (i j : Nat) : Bool := Path.sharesNode (table.nodesOf i) (table.nodesOf j)

/-- The indices of all loops. -/
def all (table : LoopTable α) : List Nat := List.range table.size

/-- The indices of the loops that avoid some nodes. -/
def avoiding (table : LoopTable α) (nodes : List NodeId) : List Nat :=
  table.all.filter fun i => !Path.sharesNode (table.nodesOf i) nodes

/-! ## Sets of loops that do not touch -/

/-- The sets that have one more member than a set: a higher one that touches none of the set. -/
def grow (table : LoopTable α) (members set : List Nat) : List (List Nat) :=
  match set.getLast? with
  | none => []
  | some last =>
    (members.filter fun m => decide (last < m) && set.all fun s => !table.touch s m).map fun m => set ++ [m]

/-- The levels from a level on, as long as they are not empty. -/
def levelsFrom (table : LoopTable α) (members : List Nat) : Nat → List (List Nat) → List (List (List Nat))
  | 0, _ => []
  | fuel + 1, level =>
    if level.isEmpty then []
    else level :: table.levelsFrom members fuel (level.flatMap (table.grow members))

/-- **The sets of pairwise non-touching loops** among the members, by size, those of one size in lexicographic order. A
set has no more loops than there are members. -/
def nonTouchingSets (table : LoopTable α) (members : List Nat) : List (List (List Nat)) :=
  table.levelsFrom members members.length (members.map fun m => [m])

/-! ## The determinant -/

variable [Scalar α]

/-- The gain of a loop. -/
def gainOf (table : LoopTable α) (i : Nat) : Expr α :=
  (table[i]?.map LoopData.gain).getD (Expr.literal Scalar.one)

/-- The product of the gains of a set of loops. -/
def product (table : LoopTable α) (set : List Nat) : Expr α := Path.product (set.map table.gainOf)

/-- The sum of the products of the sets of a level. -/
def levelSum? (table : LoopTable α) : List (List Nat) → Option (Expr α)
  | [] => none
  | set :: rest => some ((rest.map table.product).foldl (Expr.binary .add) (table.product set))

/-- An expression, simplified if a configuration asks for it. -/
def simplified (config : Option SimplifyConfig) (e : Expr α) : Expr α :=
  match config with
  | some c => (e.simplify c).1
  | none => e

/-- Adds the levels to a determinant, the first one with the sign of `odd`. -/
def addLevels (table : LoopTable α) (config : Option SimplifyConfig) (odd : Bool) (det : Expr α) :
    List (List (List Nat)) → Expr α
  | [] => det
  | level :: rest =>
    match table.levelSum? level with
    | none => det
    | some sum =>
      table.addLevels config (!odd) (simplified config (Expr.binary (if odd then .sub else .add) det sum)) rest

/-- **The determinant over some of the loops.** -/
def determinantOf (table : LoopTable α) (members : List Nat) (config : Option SimplifyConfig) : Expr α :=
  table.addLevels config true (Expr.literal Scalar.one) (table.nonTouchingSets members)

/-- The gains and nodes of loops, or an error at the first branch that is not in the graph. -/
def ofLoops (g : Graph α) (loops : List Path) : Except GraphError (LoopTable α) := do
  let data ← loops.mapM fun l => do
    let gain ← l.gain g
    let nodes ← l.nodes g
    return ({ gain, nodes } : LoopData α)
  return data.toArray

end LoopTable

end SignalFlow
