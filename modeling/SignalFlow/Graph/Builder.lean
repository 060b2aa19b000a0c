import SignalFlow.Graph.Registry
import SignalFlow.Reader.OfText

/-!
# Building a graph from names and texts

A `Builder` collects node names, and branches given by the names of their ends and the text of their weight. Nothing is
checked until `build`, which reports the first fault: a name that is used twice, then branch by branch an unknown end
or a weight that is no expression.
-/

namespace SignalFlow

/-- **A branch to be built.** -/
structure Builder.Plan where
  source : String
  dest : String
  /-- The text of the weight; none means the weight 1. -/
  weight : Option String
deriving DecidableEq, Repr

/-- **Names and branches of a graph to be built.** The index of a name is the handle of its node. -/
structure Builder where
  names : List String := []
  plans : List Builder.Plan := []
deriving Repr

namespace Builder

/-- Adds a node; answers the handle it will have. -/
def addNode (b : Builder) (name : String) : NodeId × Builder :=
  (⟨b.names.length⟩, { b with names := b.names ++ [name] })

/-- The handle of the first node of a name. -/
def lookup? (b : Builder) (name : String) : Option NodeId := (b.names.idxOf? name).map Id.mk

/-- The handle of a name, which is added first if it is new. -/
def ensureNode (b : Builder) (name : String) : NodeId × Builder :=
  match b.lookup? name with
  | some i => (i, b)
  | none => b.addNode name

/-- Records a branch between two names. -/
def connect (b : Builder) (source dest : String) (weight : Option String) : Builder :=
  { b with plans := b.plans ++ [⟨source, dest, weight⟩] }

/-- Gives a node another name; branches recorded before keep the old one. -/
def rename (b : Builder) (i : NodeId) (name : String) : Builder := { b with names := b.names.set i.index name }

/-- The first name that occurs among the names before it. -/
def repeated? (seen : List String) : List String → Option String
  | [] => none
  | name :: rest => if name ∈ seen then some name else repeated? (name :: seen) rest

variable {α : Type} [Scalar α]

/-- The handle of a name, or an error. -/
def lookup (b : Builder) (name : String) : Except GraphError NodeId :=
  match b.lookup? name with
  | some i => .ok i
  | none => .error (.unknownName name)

/-- The expression of a weight. -/
def readWeight : Option String → Except GraphError (Option (Expr α))
  | none => .ok none
  | some text =>
    match Expr.ofText text with
    | .ok e => .ok (some e)
    | .error e => .error (.weight text e)

/-- Adds a recorded branch to a graph. -/
def place (b : Builder) (g : Graph α) (p : Plan) : Except GraphError (Graph α) := do
  let source ← b.lookup p.source
  let dest ← b.lookup p.dest
  let weight ← readWeight p.weight
  let (_, g) ← g.connect source dest weight
  return g

/-- Adds recorded branches to a graph, one after the other. -/
def placeAll (b : Builder) (g : Graph α) : List Plan → Except GraphError (Graph α)
  | [] => .ok g
  | p :: rest => do
    let g ← b.place g p
    b.placeAll g rest

/-- **The graph of the recorded names and branches.** -/
def build (b : Builder) : Except GraphError (Graph α) := do
  if let some name := repeated? [] b.names then throw (.duplicateName name)
  let g ← b.placeAll (b.names.foldl (fun g name => (g.createNode name).2) {}) b.plans
  g.check
  return g

end Builder

end SignalFlow
