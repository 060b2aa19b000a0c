import SignalFlow.Tree

/-!
# Places of nodes

The nodes of an editable expression sit in numbered slots. A slot that becomes free is used again before any new one is
made, the last freed slot first. `place` gives every node of a tree a slot, children before parents.
-/

namespace SignalFlow

/-- **The state of the slots**: the free ones, last freed first, and the number of slots made so far. -/
structure Slots where
  free : List Id := []
  size : Nat := 0
deriving Repr

namespace Slots

/-- The number of slots in use. -/
def live (s : Slots) : Nat := s.size - s.free.length

/-- A slot for a new node. -/
def take (s : Slots) : Id × Slots :=
  match s.free with
  | i :: rest => (i, { s with free := rest })
  | [] => (⟨s.size⟩, { s with size := s.size + 1 })

/-- Gives slots back, in the order of the list. -/
def release (s : Slots) (freed : List Id) : Slots :=
  { s with free := freed.foldl (fun free i => i :: free) s.free }

end Slots

namespace Tree

variable {ι α : Type}

mutual

/-- **The tree with a slot for every node**, children before parents and left to right. -/
def place : Tree ι α → Slots → Tree Id α × Slots
  | .literal _ v, s =>
    let (i, s) := s.take
    (.literal i v, s)
  | .var _ name, s =>
    let (i, s) := s.take
    (.var i name, s)
  | .infinity _, s =>
    let (i, s) := s.take
    (.infinity i, s)
  | .negate _ t, s =>
    let (t, s) := t.place s
    let (i, s) := s.take
    (.negate i t, s)
  | .binary _ op a b, s =>
    let (a, s) := a.place s
    let (b, s) := b.place s
    let (i, s) := s.take
    (.binary i op a b, s)
  | .list _ items, s =>
    let (items, s) := placeAll items s
    let (i, s) := s.take
    (.list i items, s)

/-- The trees with a slot for every node, one tree after the other. -/
def placeAll : List (Tree ι α) → Slots → List (Tree Id α) × Slots
  | [], s => ([], s)
  | t :: ts, s =>
    let (t, s) := t.place s
    let (ts, s) := placeAll ts s
    (t :: ts, s)

end

end Tree

end SignalFlow
