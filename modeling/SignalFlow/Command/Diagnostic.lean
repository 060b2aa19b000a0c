import SignalFlow.Mason.Error

/-!
# Diagnostics

What a command says about an error: the name of the cause, with its details by name between braces or the error behind
it in parentheses.
-/

namespace SignalFlow

/-- **Errors of a command.** -/
inductive CommandError where
  /-- The text of a branch does not have its form. -/
  | invalidBranch (text : String)
  /-- The text of a binding does not have its form. -/
  | invalidBinding (text : String)
  | expr (e : ExprError)
  | graph (e : GraphError)
  | solver (e : SolverError)
deriving DecidableEq, Repr

namespace Diagnostic

/-- A cause with details, each with its name. -/
def details (cause : String) (fields : List (String × String)) : String :=
  cause ++ " \x7b " ++ ", ".intercalate (fields.map fun f => f.1 ++ ": " ++ f.2) ++ " \x7d"

/-- A cause with one detail that is a text. -/
def quoting (cause name text : String) : String := details cause [(name, Text.quoted text)]

/-- A cause that lies in another error. -/
def wrapping (cause inner : String) : String := cause ++ "(" ++ inner ++ ")"

end Diagnostic

/-- The diagnostic of an error of expressions. -/
def ExprError.diagnostic : ExprError → String
  | .read e =>
    Diagnostic.wrapping "Parse"
      (Diagnostic.details "ParseError" [("offset", toString e.offset), ("kind", e.fault.text)])
  | .malformedCall f => Diagnostic.quoting "MalformedFunctionCall" "reason" f.reason
  | .undefinedVariable name => Diagnostic.quoting "UndefinedVariable" "name" name
  | .cyclicBinding name => Diagnostic.quoting "CyclicBinding" "name" name
  | .notEvaluable => "NotEvaluable"
  | .noParent => "NoParent"
  | .fixedArityParent => "FixedArityParent"
  | .invalidNode f => Diagnostic.quoting "InvalidNode" "what" f.text
  | .outOfMemory => Diagnostic.quoting "OutOfMemory" "what" ExprError.arena

/-- The diagnostic of an error of graphs. -/
def GraphError.diagnostic : GraphError → String
  | .nodeNotFound i => Diagnostic.details "NodeNotFound" [("node", i.debugText)]
  | .branchNotFound i => Diagnostic.details "BranchNotFound" [("branch", i.debugText)]
  | .duplicateName name => Diagnostic.quoting "DuplicateNodeName" "name" name
  | .unknownName name => Diagnostic.quoting "UnknownNodeName" "name" name
  | .inconsistent branch node =>
    Diagnostic.details "InconsistentAdjacency" [("branch", branch.debugText), ("node", node.debugText)]
  | .missing what => Diagnostic.quoting "IdNotFound" "what" what.text
  | .weight text e => Diagnostic.details "Weight" [("source", Text.quoted text), ("err", e.diagnostic)]

/-- The diagnostic of an error of the solver. -/
def SolverError.diagnostic : SolverError → String
  | .graph e => Diagnostic.wrapping "Graph" e.diagnostic
  | .tooLarge nodes max => Diagnostic.details "GraphTooLarge" [("nodes", toString nodes), ("max", toString max)]
  | .unknownNode name => Diagnostic.quoting "NotFound" "what" (SolverError.nodeText name)

/-- **The diagnostic of an error of a command.** -/
def CommandError.diagnostic : CommandError → String
  | .invalidBranch text => Diagnostic.quoting "InvalidBranch" "spec" text
  | .invalidBinding text => Diagnostic.quoting "InvalidBinding" "spec" text
  | .expr e => Diagnostic.wrapping "Expr" e.diagnostic
  | .graph e => Diagnostic.wrapping "Graph" e.diagnostic
  | .solver e => Diagnostic.wrapping "Solver" e.diagnostic

end SignalFlow
