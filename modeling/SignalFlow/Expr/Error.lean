import SignalFlow.Id
import SignalFlow.Fault
import SignalFlow.Text.Quoted

/-!
# Errors of expressions

What can go wrong when an expression is read, edited or evaluated, one constructor for every cause. `message` gives the
text of an error, `fault` its kind.
-/

namespace SignalFlow

/-- **Why a text is no expression.** -/
inductive ReadFault where
  | unexpectedChar (c : Char)
  | unexpectedToken
  | unexpectedEnd
  | unbalancedParen
  | invalidNumber
deriving DecidableEq, Repr

/-- The name of a cause. -/
def ReadFault.text : ReadFault → String
  | .unexpectedChar c => "UnexpectedChar(" ++ Text.quotedChar c ++ ")"
  | .unexpectedToken => "UnexpectedToken"
  | .unexpectedEnd => "UnexpectedEnd"
  | .unbalancedParen => "UnbalancedParen"
  | .invalidNumber => "InvalidNumber"

/-- **A place in a text that cannot be read.** The offset counts bytes of the encoded text. -/
structure ReadError where
  offset : Nat
  fault : ReadFault
deriving DecidableEq, Repr

/-- The text shown for an unreadable place. -/
def ReadError.message (e : ReadError) : String :=
  "parse error at offset " ++ toString e.offset ++ ": " ++ e.fault.text

/-- **Why `exp` is not called properly.** -/
inductive CallFault where
  /-- It is no factor of a product, or the next factor is no argument list. -/
  | notFollowed
  /-- It is not found among the factors of its product. -/
  | outsideProduct
  /-- It is the last factor of its product. -/
  | missingArguments
  /-- The list does not hold one argument. -/
  | notOneArgument
deriving DecidableEq, Repr

/-- The description of an improper call. -/
def CallFault.reason : CallFault → String
  | .notFollowed => "exp must be followed by a parenthesized argument"
  | .outsideProduct => "exp is not part of its product"
  | .missingArguments => "missing argument list after exp"
  | .notOneArgument => "exp takes exactly one argument"

/-- **Why a node cannot take part in an operation.** -/
inductive NodeFault where
  | emptyList
  | notLive (node : Id)
  | notBinary (node : Id)
  | missingOperand
  /-- A free slot is used in the tree. -/
  | free (node : Id)
  /-- Two nodes have the same slot. -/
  | repeated (node : Id)
  /-- Some slots in use are not reached from the root. -/
  | unreached (live reached : Nat)
deriving DecidableEq, Repr

/-- The description of an unfit node. -/
def NodeFault.text : NodeFault → String
  | .emptyList => "empty argument list"
  | .notLive i => "node " ++ i.text ++ " is not live"
  | .notBinary i => "node " ++ i.text ++ " is not a binary operator"
  | .missingOperand => "operator without operand"
  | .free i => "node " ++ i.text ++ " is referenced but free"
  | .repeated i => "node " ++ i.text ++ " is reachable twice"
  | .unreached live reached => toString live ++ " live nodes but only " ++ toString reached ++ " reachable"

/-- **Errors of expressions.** -/
inductive ExprError where
  | read (e : ReadError)
  | malformedCall (f : CallFault)
  | undefinedVariable (name : String)
  | cyclicBinding (name : String)
  | notEvaluable
  | noParent
  | fixedArityParent
  | invalidNode (f : NodeFault)
  | outOfMemory
deriving DecidableEq, Repr

namespace ExprError

/-- What cannot grow when an expression runs out of memory. -/
def arena : String := "expression arena"

/-- The text shown for an error. -/
def message : ExprError → String
  | .read e => e.message
  | .malformedCall f => "Malformed function call: " ++ f.reason
  | .undefinedVariable name => "Undefined variable: " ++ name
  | .cyclicBinding name => "Cyclic binding while resolving variable: " ++ name
  | .notEvaluable => "Expression contains an argument list and cannot be evaluated"
  | .noParent => "Node has no parent"
  | .fixedArityParent => "Parent has a fixed number of operands"
  | .invalidNode f => "Invalid expression node: " ++ f.text
  | .outOfMemory => "Out of memory while growing " ++ arena

/-- The kind of an error. -/
def fault : ExprError → Fault
  | .undefinedVariable name => .notFound ("variable " ++ name)
  | .outOfMemory => .outOfMemory arena
  | .invalidNode f => .invariant f.text
  | e => .invalidArgument e.message

end ExprError

/-- **Access outside of what exists**: a mistake of the caller rather than of the data. -/
inductive AccessError where
  /-- No live node has this handle. -/
  | staleNode (node : Id)
  | outOfBounds (length index : Nat)
deriving DecidableEq, Repr

/-- The text shown for a mistaken access. -/
def AccessError.message : AccessError → String
  | .staleNode i => "stale expression node " ++ i.debugText
  | .outOfBounds length index =>
    "index out of bounds: the len is " ++ toString length ++ " but the index is " ++ toString index

end SignalFlow
