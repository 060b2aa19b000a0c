/-!
# Handles

Nodes and branches of a graph and nodes of an expression are named by handles. A handle is the index at which its
entity was created; those that are given out have no bound, as no vector comes near the largest 32-bit number. A number
read from outside becomes a handle through `Id.ofIndex`, which keeps it below that, or through `Id.ofIndex?`, which
refuses the one 32-bit number that has no handle.
-/

namespace SignalFlow

/-- **A handle**, given by the index of the entity it names. -/
structure Id where
  index : Nat
deriving DecidableEq, Repr, Inhabited

/-- The handle of a graph node. -/
abbrev NodeId := Id

/-- The handle of a graph branch. -/
abbrev BranchId := Id

namespace Id

/-- The largest index that can be read from outside. -/
def maxIndex : Nat := 4294967294

/-- The handle of an index; a larger number stands for the largest handle. -/
def ofIndex (n : Nat) : Id := ⟨min n maxIndex⟩

/-- The handle of an index that has one. -/
def ofIndex? (n : Nat) : Option Id := if n ≤ maxIndex then some ⟨n⟩ else none

/-- A handle is written as its index. -/
def text (i : Id) : String := toString i.index

/-- The form of a handle in diagnostics. -/
def debugText (i : Id) : String := "Id(" ++ i.text ++ ")"

end Id

end SignalFlow
