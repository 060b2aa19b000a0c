/-!
# Options of the command line

The options of all commands, with their names and with what each of them takes.
-/

namespace SignalFlow.Command

/-- **An option of the command line.** -/
inductive Switch where
  /-- A branch of the graph. -/
  | branch
  /-- A node of the graph, for nodes without branches. -/
  | node
  /-- The greatest number of nodes a graph may have. -/
  | maxNodes
  /-- The node a signal enters. -/
  | input
  /-- The node a signal is taken from. -/
  | output
  /-- A binding of a name. -/
  | binding
  /-- Leaves results as they are. -/
  | noSimplify
  /-- Asks for a report. -/
  | report
  /-- The limit of rounds of a simplification. -/
  | maxPasses
deriving DecidableEq, Repr

/-- **What an option takes**, and how often it may be given. -/
inductive Switch.Kind where
  /-- No value, at most once. -/
  | flag
  /-- A value, at most once. -/
  | single
  /-- A value, any number of times. -/
  | repeated
deriving DecidableEq, Repr

namespace Switch

/-- The name of an option, written after two hyphens. -/
def name : Switch → String
  | branch => "branch"
  | node => "node"
  | maxNodes => "max-nodes"
  | input => "input"
  | output => "output"
  | binding => "var"
  | noSimplify => "no-simplify"
  | report => "json"
  | maxPasses => "max-passes"

/-- The letter of an option, written after one hyphen. -/
def letter? : Switch → Option Char
  | branch => some 'b'
  | _ => none

/-- What an option takes. -/
def kind : Switch → Kind
  | branch | node | binding => .repeated
  | maxNodes | input | output | maxPasses => .single
  | noSimplify | report => .flag

end Switch

end SignalFlow.Command
