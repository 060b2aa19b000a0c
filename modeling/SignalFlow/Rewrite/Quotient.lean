import SignalFlow.Expr.Basic

/-!
# Quotients as powers and differences as sums

Rewrites `a/s^c` as `a*s^(-c)`, `a/s` as `a*s^(-1)`, `a - k*s` as `a + (-k)*s` and `a - s` as `a + s*(-1)`.
-/

namespace SignalFlow.Rewrite

variable {α : Type} [Scalar α]

/-- A divisor as a factor. -/
def inverse : Tree Id α → Slots → Tree Id α × Slots
  | .binary l .pow base (.literal k c), s => (.binary l .pow base (.literal k (Scalar.neg c)), s)
  | .binary l .pow base exponent, s =>
    let (i, s) := s.take
    (.binary l .pow base (.negate i exponent), s)
  | t, s =>
    let (i, s) := s.take
    let (j, s) := s.take
    (.binary j .pow t (.literal i Scalar.minusOne), s)

/-- A subtrahend as a summand. The first literal factor of a product changes its sign. -/
def opposite : Tree Id α → Slots → Tree Id α × Slots
  | .binary l .mul (.literal k v) b, s => (.binary l .mul (.literal k (Scalar.neg v)) b, s)
  | .binary l .mul a (.literal k v), s => (.binary l .mul a (.literal k (Scalar.neg v)), s)
  | t, s =>
    let (i, s) := s.take
    let (j, s) := s.take
    (.binary j .mul t (.literal i Scalar.minusOne), s)

mutual

/-- **Rewrites the quotients and differences of a tree**, operands before operators, and counts them. -/
def flatten : Tree Id α → Slots → Nat → Tree Id α × Slots × Nat
  | .literal l v, s, n => (.literal l v, s, n)
  | .var l name, s, n => (.var l name, s, n)
  | .infinity l, s, n => (.infinity l, s, n)
  | .negate l t, s, n =>
    let (t, s, n) := flatten t s n
    (.negate l t, s, n)
  | .binary l op a b, s, n =>
    let (a, s, n) := flatten a s n
    let (b, s, n) := flatten b s n
    match op with
    | .div =>
      let (b, s) := inverse b s
      (.binary l .mul a b, s, n + 1)
    | .sub =>
      let (b, s) := opposite b s
      (.binary l .add a b, s, n + 1)
    | op => (.binary l op a b, s, n)
  | .list l items, s, n =>
    let (items, s, n) := flattenAll items s n
    (.list l items, s, n)

/-- Rewrites the quotients and differences of several trees. -/
def flattenAll : List (Tree Id α) → Slots → Nat → List (Tree Id α) × Slots × Nat
  | [], s, n => ([], s, n)
  | t :: ts, s, n =>
    let (t, s, n) := flatten t s n
    let (ts, s, n) := flattenAll ts s n
    (t :: ts, s, n)

end

end SignalFlow.Rewrite

/-- Rewrites the quotients and differences of an expression; answers how many there were. -/
def SignalFlow.Expr.eliminateQuotients {α : Type} [Scalar α] (e : Expr α) : Expr α × Nat :=
  let (tree, slots, n) := Rewrite.flatten e.tree e.slots 0
  ({ e with tree, slots }, n)
