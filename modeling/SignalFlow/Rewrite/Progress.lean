/-!
# What a pass keeps track of

While a pass goes through a tree it remembers the places that became free, the last one on top, and how many rewrites it
has made.
-/

namespace SignalFlow.Rewrite

/-- **The progress of a pass**: the stack of free labels and the number of rewrites. -/
structure Progress (ι : Type) where
  free : List ι
  count : Nat

/-- One more rewrite, which makes places free in the order of the list. -/
def Progress.rewrite {ι : Type} (p : Progress ι) (freed : List ι) : Progress ι :=
  ⟨freed.foldl (fun free l => l :: free) p.free, p.count + 1⟩

end SignalFlow.Rewrite
