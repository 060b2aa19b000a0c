/-!
# Kinds of failure

Every error of the library belongs to one of four kinds. The errors of each part are types of their own, with a function
`fault` to this one.
-/

namespace SignalFlow

/-- **What kind of failure an error is**, with a description of its cause. -/
inductive Fault where
  /-- The request itself is wrong. -/
  | invalidArgument (what : String)
  /-- Something named in the request does not exist. -/
  | notFound (what : String)
  /-- A container cannot grow. -/
  | outOfMemory (what : String)
  /-- A structure does not keep its own rules. -/
  | invariant (what : String)
deriving DecidableEq, Repr

/-- The text shown for a failure. -/
def Fault.message : Fault → String
  | .invalidArgument what => "Invalid argument: " ++ what
  | .notFound what => "Not found: " ++ what
  | .outOfMemory what => "Out of memory while growing " ++ what
  | .invariant what => "Invariant violated: " ++ what

end SignalFlow
