import SignalFlow.Command.Diagnostic
import SignalFlow.Text.Blank
import SignalFlow.Text.Cut
import SignalFlow.Graph.Builder

/-!
# Graphs described in arguments

A branch is written `SOURCE:DEST` or `SOURCE:DEST=WEIGHT`, with blanks allowed around each part. A node is made where
its name is first mentioned: names given on their own come first, then the ends of each branch.
-/

namespace SignalFlow.Command

/-- **The branch written in a text.** It has two ends, and a weight if there is an equals sign; none of them is empty.
-/
def planOf? (text : String) : Option Builder.Plan :=
  let (ends, weight) := match Text.cut? '=' text.toList with
    | some (ends, weight) => (ends, some (Text.trim weight))
    | none => (text.toList, none)
  match Text.cut? ':' ends with
  | none => none
  | some (source, dest) =>
    let source := Text.trim source
    let dest := Text.trim dest
    if source = [] ∨ dest = [] ∨ weight = some [] then none
    else some ⟨String.ofList source, String.ofList dest, weight.map String.ofList⟩

/-- Adds a branch, and its ends before it. -/
def addPlan (b : Builder) (p : Builder.Plan) : Builder :=
  ((b.ensureNode p.source).2.ensureNode p.dest).2.connect p.source p.dest p.weight

/-- Adds the branches of texts, up to the first that is no branch. -/
def addBranches (b : Builder) : List String → Except CommandError Builder
  | [] => .ok b
  | text :: rest =>
    match planOf? text with
    | some p => addBranches (addPlan b p) rest
    | none => .error (.invalidBranch text)

/-- **A graph as arguments describe it.** -/
structure Outline where
  /-- The names of nodes. -/
  nodes : List String
  /-- The texts of branches. -/
  branches : List String
  /-- The greatest number of nodes that is accepted. -/
  maxNodes : Nat := 64
deriving DecidableEq, Repr

namespace Outline

/-- The nodes and branches of a description. -/
def builder (o : Outline) : Except CommandError Builder :=
  addBranches (o.nodes.foldl (fun b name => (b.ensureNode name).2) {}) o.branches

/-- **The graph of a description.** -/
def graph {α : Type} [Scalar α] (o : Outline) : Except CommandError (Graph α) := do
  let b ← o.builder
  let g ← b.build.mapError .graph
  if o.maxNodes < g.nodeCount then throw (.solver (.tooLarge g.nodeCount o.maxNodes))
  return g

end Outline

end SignalFlow.Command
