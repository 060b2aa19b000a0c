import SignalFlow.Command.Request
import SignalFlow.Command.Assignment
import SignalFlow.Command.Document
import SignalFlow.Expr.Dot
import SignalFlow.Mason.Solve

/-!
# Running requests

`Request.answer` is what a request prints, or the first error it meets; `run` is the outcome of the arguments of the
program.
-/

namespace SignalFlow.Command

/-! ## Paths -/

/-- **A path as it is shown**: the names of its nodes, and its gain. -/
structure Route where
  names : List String
  gain : String
deriving DecidableEq, Repr

/-- How a path of a graph is shown. -/
def Route.ofPath {α : Type} [Scalar α] (g : Graph α) (p : Path) : Except GraphError Route := do
  let nodes ← p.nodes g
  return { names := nodes.filterMap fun i => (g.node? i).map Graph.Node.name, gain := (← p.gain g).text }

/-- The line of a path in a list, with its letter and its number from one. -/
def Route.line (letter : String) (r : Route × Nat) : String :=
  letter ++ toString (r.2 + 1) ++ ": " ++ " -> ".intercalate r.1.names ++ "  gain: " ++ r.1.gain ++ "\n"

/-- The lines of some paths, or a line that says there are none. -/
def pathLines {α : Type} [Scalar α] (g : Graph α) (letter noneText : String) (ps : List Path) :
    Except GraphError String := do
  let routes ← ps.mapM (Route.ofPath g)
  return if routes.isEmpty then noneText ++ "\n" else String.join (routes.zipIdx.map (Route.line letter))

/-! ## Solutions -/

/-- The document of a path. -/
def Route.document (r : Route) : Document :=
  .record [("nodes", .list (r.names.map .text)), ("gain", .text r.gain)]

/-- The document of some paths. -/
def pathDocument (g : Graph Double) (ps : List Path) : Except GraphError Document := do
  return .list ((← ps.mapM (Route.ofPath g)).map Route.document)

/-- **The report of a solution**, with the value of its transfer function if there is one. -/
def solutionDocument (g : Graph Double) (s : Solution Double) (value : Option Double) : Except GraphError Document := do
  let paths ← pathDocument g s.paths
  let loops ← pathDocument g s.loops
  return .record
    ([("transfer_function", .text s.transferFunction.text), ("numerator", .text s.numerator.text),
      ("determinant", .text s.determinant.text), ("paths", paths), ("loops", loops)]
      ++ (value.map fun v => ("value", .real v.toFloat)).toList)

/-- **The lines that show a solution**, with the value of its transfer function if there is one. -/
def solutionLines (s : Solution Double) (value : Option Double) : String :=
  "T = " ++ s.transferFunction.text ++ "\n"
    ++ "  numerator:   " ++ s.numerator.text ++ "\n"
    ++ "  determinant: " ++ s.determinant.text ++ "\n"
    ++ "  " ++ toString s.paths.length ++ " forward path(s), " ++ toString s.loops.length ++ " loop(s)\n"
    ++ ((value.map fun v => "  value: " ++ Scalar.text v ++ "\n").getD "")

/-! ## Requests -/

/-- The expression of a text. -/
def expression (text : String) : Except CommandError (Expr Double) := (Expr.ofText text).mapError .expr

/-- The value of an expression with the bindings of texts. -/
def valueWith (bindings : List String) (e : Expr Double) : Except CommandError Double := do
  let T ← bindingsOf bindings
  (e.evaluate T).mapError .expr

/-- The node of a name. -/
def nodeNamed {α : Type} (g : Graph α) (name : String) : Except CommandError NodeId :=
  match g.find? name with
  | some i => .ok i
  | none => .error (.graph (.unknownName name))

namespace Request

/-- What `eval` prints. -/
def evalAnswer (text : String) (bindings : List String) : Except CommandError String := do
  let e ← expression text
  return Scalar.text (← valueWith bindings e) ++ "\n"

/-- What `simplify` prints. -/
def simplifyAnswer (text : String) (maxPasses : Nat) : Except CommandError String := do
  let e ← expression text
  return (e.simplify { maxPasses }).1.text ++ "\n"

/-- What `dot` prints. -/
def dotAnswer (text : String) : Except CommandError String := do
  return (← expression text).dot

/-- What `loops` prints. -/
def loopsAnswer (outline : Outline) : Except CommandError String := do
  let g : Graph Double ← outline.graph
  let loops ← g.loops.mapError .graph
  (pathLines g "L" "No loops" loops).mapError .graph

/-- What `paths` prints. -/
def pathsAnswer (outline : Outline) (input output : String) : Except CommandError String := do
  let g : Graph Double ← outline.graph
  let i ← nodeNamed g input
  let o ← nodeNamed g output
  let paths ← (g.forwardPaths i o).mapError .graph
  (pathLines g "P" "No forward paths" paths).mapError .graph

/-- What `solve` prints. -/
def solveAnswer (outline : Outline) (input output : String) (bindings : List String) (simplify report : Bool) :
    Except CommandError String := do
  let g : Graph Double ← outline.graph
  let s ← (g.solveNamed input output { maxNodes := outline.maxNodes, simplify }).mapError .solver
  let value ← if bindings.isEmpty then pure none else some <$> valueWith bindings s.transferFunction
  if report then
    return (← (solutionDocument g s value).mapError .graph).pretty ++ "\n"
  return solutionLines s value

/-- **What a request prints**, or the first error it meets. -/
def answer : Request → Except CommandError String
  | .eval text bindings => evalAnswer text bindings
  | .simplify text maxPasses => simplifyAnswer text maxPasses
  | .dot text => dotAnswer text
  | .loops graph => loopsAnswer graph
  | .paths graph input output => pathsAnswer graph input output
  | .solve graph input output bindings simplifies reports =>
    solveAnswer graph input output bindings simplifies reports

end Request

/-! ## Outcomes -/

/-- **The outcome of a run of the program.** -/
inductive Outcome where
  /-- The arguments are no request. -/
  | misuse
  | failure (e : CommandError)
  | success (output : String)
deriving DecidableEq, Repr

namespace Outcome

/-- The exit code. -/
def code : Outcome → UInt8
  | success _ => 0
  | failure _ => 1
  | misuse => 2

/-- What is printed as the result. -/
def output : Outcome → String
  | success text => text
  | _ => ""

/-- A line for each command. -/
def usage : String :=
  "usage: sfg eval EXPR [--var NAME=VALUE]...\n"
    ++ "       sfg simplify EXPR [--max-passes N]\n"
    ++ "       sfg dot EXPR\n"
    ++ "       sfg loops GRAPH\n"
    ++ "       sfg paths GRAPH --input NODE --output NODE\n"
    ++ "       sfg solve GRAPH --input NODE --output NODE [--var NAME=VALUE]... [--no-simplify] [--json]\n"
    ++ "GRAPH: --branch SRC:DST[=WEIGHT]... [--node NAME]... [--max-nodes N]\n"

/-- What is printed about an error. -/
def complaint : Outcome → String
  | success _ => ""
  | failure e => "Error: " ++ e.diagnostic ++ "\n"
  | misuse => usage

end Outcome

/-- **Runs the program** on its arguments. -/
def run (args : List String) : Outcome :=
  match Request.ofArguments? args with
  | none => .misuse
  | some request =>
    match request.answer with
    | .ok text => .success text
    | .error e => .failure e

end SignalFlow.Command
