import SignalFlow.Slots
import SignalFlow.Expr.Error

/-!
# Calls and groups

The grammar leaves `exp(x)` as a product of the variable `exp` and an argument list with one item. `expandCalls` turns
every such pair of neighbouring factors into the power `e^x`; a sign in front of `exp` stays in front of the power. The
calls are expanded one by one in preorder, the argument of a call right after the call itself.

`ungroup` then replaces every argument list with one item by this item.
-/

namespace SignalFlow.Reader

variable {ι α : Type}

/-- **Where a tree stands in a product.** In the products of the grammar a right operand is never a product itself, so
the factor after a left operand is the right operand next to it. -/
inductive Place (α : Type) where
  /-- It is no factor. -/
  | alone
  /-- It is the last factor. -/
  | last
  /-- The product at `holder` joins it with the factor that follows. -/
  | before (holder : Id) (next : Tree Id α)

namespace Place

/-- The number of nodes of the factor that follows. -/
def size : Place α → Nat
  | .before _ next => next.size
  | _ => 0

/-- The place of the right operand of a product that stands at a place. -/
def ofRight : Place α → Place α
  | .alone => .last
  | p => p

/-- The place of the operand `t` of a negation that stands at a place. A product under a sign stands alone. -/
def underSign (p : Place α) : Tree Id α → Place α
  | .binary _ _ _ _ => .alone
  | _ => p

theorem size_alone : (alone : Place α).size = 0 := rfl

theorem size_before (holder : Id) (next : Tree Id α) : (before holder next).size = next.size := rfl

theorem size_ofRight (p : Place α) : p.ofRight.size = p.size := by
  cases p <;> rfl

theorem size_underSign_le (p : Place α) (t : Tree Id α) : (p.underSign t).size ≤ p.size := by
  cases t <;> simp [underSign, size]

end Place

/-- What is left of a tree after its calls are expanded. -/
structure Expanded (β : Type) where
  result : β
  /-- Whether the factor that followed was used up as an argument list. -/
  tookNext : Bool
  slots : Slots

/-- The name of the exponential function. -/
def expName : String := "exp"

/-- The base of the exponential function. -/
def baseName : String := "e"

mutual

/-- The tree with its calls expanded, standing at a place. A call takes slots for the base and for the power, then gives
back those of `exp`, of the product that held the list, and of the list. -/
def expand (t : Tree Id α) (p : Place α) (s : Slots) : Except CallFault (Expanded (Tree Id α)) :=
  match t, p with
  | .var l name, p =>
    if name = expName then
      match p with
      | .alone => throw .notFollowed
      | .last => throw .missingArguments
      | .before holder (.list k [argument]) => do
        let (base, s) := s.take
        let (power, s) := s.take
        let arg ← expand argument .alone (s.release [l, holder, k])
        return ⟨.binary power .pow (.var base baseName) arg.result, true, arg.slots⟩
      | .before _ (.list _ _) => throw .notOneArgument
      | .before _ _ => throw .notFollowed
    else return ⟨.var l name, false, s⟩
  | .literal l v, _ => return ⟨.literal l v, false, s⟩
  | .infinity l, _ => return ⟨.infinity l, false, s⟩
  | .negate l u, p => do
    have := p.size_underSign_le u
    let r ← expand u (p.underSign u) s
    return { r with result := .negate l r.result }
  | .binary l .mul a b, p => do
    let left ← expand a (.before l b) s
    if left.tookNext then return { left with tookNext := false }
    else
      have := p.size_ofRight
      let right ← expand b p.ofRight left.slots
      return { right with result := .binary l .mul left.result right.result }
  | .binary l op a b, _ => do
    let left ← expand a .alone s
    let right ← expand b .alone left.slots
    return ⟨.binary l op left.result right.result, false, right.slots⟩
  | .list l items, _ => do
    let r ← expandAll items s
    return { r with result := .list l r.result }
termination_by (t.size + p.size, 0)
decreasing_by
  all_goals
    simp only [Prod.lex_def, Tree.size, Tree.sizeAll, Place.size_alone, Place.size_before]
    omega

/-- The trees with their calls expanded, none of them a factor. -/
def expandAll (ts : List (Tree Id α)) (s : Slots) : Except CallFault (Expanded (List (Tree Id α))) :=
  match ts with
  | [] => return ⟨[], false, s⟩
  | t :: ts => do
    let first ← expand t .alone s
    let others ← expandAll ts first.slots
    return ⟨first.result :: others.result, false, others.slots⟩
termination_by (Tree.sizeAll ts, 1)
decreasing_by
  all_goals
    have := t.size_pos
    simp only [Prod.lex_def, Tree.sizeAll, Place.size_alone]
    omega

end

/-- **Turns every call `exp(x)` into a power of `e`.** -/
def expandCalls (t : Tree Id α) (s : Slots) : Except CallFault (Tree Id α × Slots) := do
  let r ← expand t .alone s
  return (r.result, r.slots)

mutual

/-- **The tree with every one-item list replaced by its item**, and the stack of free labels with those of the lists on
top. -/
def ungroup : Tree ι α → List ι → Tree ι α × List ι
  | .literal l v, free => (.literal l v, free)
  | .var l name, free => (.var l name, free)
  | .infinity l, free => (.infinity l, free)
  | .negate l t, free =>
    let (t, free) := ungroup t free
    (.negate l t, free)
  | .binary l op a b, free =>
    let (a, free) := ungroup a free
    let (b, free) := ungroup b free
    (.binary l op a b, free)
  | .list l items, free =>
    match ungroupAll items free with
    | ([t], free) => (t, l :: free)
    | (items, free) => (.list l items, free)

/-- The trees with every one-item list replaced by its item, one tree after the other. -/
def ungroupAll : List (Tree ι α) → List ι → List (Tree ι α) × List ι
  | [], free => ([], free)
  | t :: ts, free =>
    let (t, free) := ungroup t free
    let (ts, free) := ungroupAll ts free
    (t :: ts, free)

end

end SignalFlow.Reader
