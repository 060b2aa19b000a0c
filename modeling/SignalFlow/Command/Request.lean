import SignalFlow.Command.Arguments
import SignalFlow.Command.Outline
import SignalFlow.Decimal.Numeral

/-!
# Requests

A request is what the arguments ask for. The first argument is the command; the others are read with the options of that
command. Arguments that lack something required, or hold more than the command takes, are no request.
-/

namespace SignalFlow.Command

/-- **What the program is asked to do.** -/
inductive Request where
  /-- Show the value of an expression. -/
  | eval (text : String) (bindings : List String)
  /-- Show an expression simplified in some rounds at most. -/
  | simplify (text : String) (maxPasses : Nat)
  /-- Draw an expression. -/
  | dot (text : String)
  /-- List the loops of a graph. -/
  | loops (graph : Outline)
  /-- List the forward paths between two nodes. -/
  | paths (graph : Outline) (input output : String)
  /-- Solve a graph between two nodes. -/
  | solve (graph : Outline) (input output : String) (bindings : List String) (simplify report : Bool)
deriving DecidableEq, Repr

namespace Request

/-- Numbers in options are below this bound. -/
def numberBound : Nat := Nat.pow 2 64

/-- **The number of a text**: digits, after an optional plus sign. -/
def number? (text : String) : Option Nat :=
  let digits := match text.toList with
    | '+' :: digits => digits
    | digits => digits
  let n := Decimal.natOfDigits digits
  if digits ≠ [] ∧ digits.all Char.isDigit ∧ n < numberBound then some n else none

/-- The number given with an option; a default if the option is not given. -/
def numberOr? (a : Arguments) (o : Switch) (default : Nat) : Option Nat :=
  match a.first? o with
  | some text => number? text
  | none => some default

/-- The text of arguments that hold exactly one. -/
def onlyText? (a : Arguments) : Option String :=
  match a.texts with
  | [text] => some text
  | _ => none

/-- The options that describe a graph. -/
def graphSwitches : List Switch := [.branch, .node, .maxNodes]

/-- The graph that arguments without texts describe; there is at least one branch. -/
def outline? (a : Arguments) : Option Outline := do
  let maxNodes ← numberOr? a .maxNodes 64
  if a.texts = [] ∧ a.all .branch ≠ [] then return { nodes := a.all .node, branches := a.all .branch, maxNodes }
  else none

/-- The request of `eval`. -/
def eval? (args : List String) : Option Request := do
  let a ← Arguments.read? [.binding] args
  return .eval (← onlyText? a) (a.all .binding)

/-- The request of `simplify`. -/
def simplify? (args : List String) : Option Request := do
  let a ← Arguments.read? [.maxPasses] args
  return .simplify (← onlyText? a) (← numberOr? a .maxPasses 16)

/-- The request of `dot`. -/
def dot? (args : List String) : Option Request := do
  let a ← Arguments.read? [] args
  return .dot (← onlyText? a)

/-- The request of `loops`. -/
def loops? (args : List String) : Option Request := do
  let a ← Arguments.read? graphSwitches args
  return .loops (← outline? a)

/-- The request of `paths`. -/
def paths? (args : List String) : Option Request := do
  let a ← Arguments.read? (graphSwitches ++ [.input, .output]) args
  return .paths (← outline? a) (← a.first? .input) (← a.first? .output)

/-- The request of `solve`. -/
def solve? (args : List String) : Option Request := do
  let a ← Arguments.read? (graphSwitches ++ [.input, .output, .binding, .noSimplify, .report]) args
  return .solve (← outline? a) (← a.first? .input) (← a.first? .output) (a.all .binding) (!a.has .noSimplify)
    (a.has .report)

/-- **The request of the arguments of the program.** -/
def ofArguments? : List String → Option Request
  | [] => none
  | command :: args =>
    if command = "eval" then eval? args
    else if command = "simplify" then simplify? args
    else if command = "dot" then dot? args
    else if command = "loops" then loops? args
    else if command = "paths" then paths? args
    else if command = "solve" then solve? args
    else none

end Request

end SignalFlow.Command
