/-!
# Nearly equal numbers

Two doubles are nearly equal when they are equal, when they differ by at most an absolute tolerance, or when they differ
by at most a fraction of the larger one.
-/

namespace SignalFlow

/-- **The tolerances of a comparison.** -/
structure Tolerance where
  abs : Float := 1e-12
  rel : Float := 1e-9

/-- The larger of two numbers; of a number and none, the number. -/
def largerOf (a b : Float) : Float :=
  if a.isNaN then b else if b.isNaN then a else if a < b then b else a

/-- **Whether two doubles agree up to the tolerances.** Equal infinities agree. -/
def Tolerance.near (tol : Tolerance) (a b : Float) : Bool :=
  if a == b then true
  else
    let diff := (a - b).abs
    if diff ≤ tol.abs then true else decide (diff ≤ tol.rel * largerOf a.abs b.abs)

end SignalFlow
