import SignalFlow.Expr.Basic

/-!
# Chains that lean to the left

Sums and differences form chains, and so do products and quotients. A chain that goes on in a right operand is turned
until it goes on in left operands only: `a + (b + c)` becomes `(b + c) + a` when `a` is no part of the chain, and
`(a + b) + c` when it is. A turn uses the node of the right operand for the new left operand, so no node is made or
lost.
-/

namespace SignalFlow.Rewrite

variable {ι α : Type}

/-- **How `a (b c)` is regrouped**, with the new outer and the new inner operator. -/
inductive Turn where
  /-- `(a b) c` -/
  | associate (outer inner : BinaryOp)
  /-- `(a c) b` -/
  | cross (outer inner : BinaryOp)
  /-- `(b c) a`, where `a` is no part of the chain. -/
  | exchange (outer inner : BinaryOp)
  /-- `(c b) a`, where `a` is no part of the chain. -/
  | reverse (outer inner : BinaryOp)

/-- The turn at an outer operator whose right operand has the inner one; `inChain` tells whether the left operand
belongs to the chain. There is none when the two operators are not of one chain. -/
def turn? : (outer inner : BinaryOp) → (inChain : Bool) → Option Turn
  | .add, .add, false => some (.exchange .add .add)
  | .add, .add, true => some (.associate .add .add)
  | .sub, .sub, false => some (.reverse .add .sub)
  | .sub, .sub, true => some (.associate .add .sub)
  | .add, .sub, false => some (.exchange .add .sub)
  | .add, .sub, true => some (.associate .sub .add)
  | .sub, .add, _ => some (.associate .sub .sub)
  | .mul, .mul, false => some (.exchange .mul .mul)
  | .mul, .mul, true => some (.associate .mul .mul)
  | .mul, .div, false => some (.exchange .mul .div)
  | .mul, .div, true => some (.associate .div .mul)
  | .div, .mul, _ => some (.associate .div .div)
  | .div, .div, _ => some (.cross .div .mul)
  | _, _, _ => none

/-- Whether a tree belongs to the chain of an operator. -/
def inChain (op : BinaryOp) (t : Tree ι α) : Bool := t.op?.any (BinaryOp.sameFamily · op)

/-- A binary node after its turns. -/
structure Turned (ι α : Type) where
  op : BinaryOp
  left : Tree ι α
  right : Tree ι α
  turns : Nat

/-- The turns at a node, as long as its right operand goes on with the chain. -/
def turnAll (outer : BinaryOp) (a : Tree ι α) : Tree ι α → Turned ι α
  | .binary l inner b c =>
    match turn? outer inner (inChain outer a) with
    | some (.associate o i) =>
      let r := turnAll o (.binary l i a b) c
      { r with turns := r.turns + 1 }
    | some (.cross o i) =>
      let r := turnAll o (.binary l i a c) b
      { r with turns := r.turns + 1 }
    | some (.exchange o i) => ⟨o, .binary l i b c, a, 1⟩
    | some (.reverse o i) => ⟨o, .binary l i c b, a, 1⟩
    | none => ⟨outer, a, .binary l inner b c, 0⟩
  | .literal l v => ⟨outer, a, .literal l v, 0⟩
  | .var l name => ⟨outer, a, .var l name, 0⟩
  | .infinity l => ⟨outer, a, .infinity l, 0⟩
  | .negate l t => ⟨outer, a, .negate l t, 0⟩
  | .list l items => ⟨outer, a, .list l items, 0⟩

/-- Turns keep the number of nodes. -/
theorem size_turnAll (outer : BinaryOp) (a r : Tree ι α) :
    (turnAll outer a r).left.size + (turnAll outer a r).right.size = a.size + r.size := by
  fun_induction turnAll outer a r with
  | case1 outer a l inner b c o i h r ih => simp only [Tree.size, r] at ih ⊢; omega
  | case2 outer a l inner b c o i h r ih => simp only [Tree.size, r] at ih ⊢; omega
  | case3 => simp only [Tree.size]; omega
  | case4 => simp only [Tree.size]; omega
  | case5 => rfl
  | case6 | case7 | case8 | case9 | case10 => rfl

mutual

/-- **One sweep of turns** through a tree, operators before operands, and the number of turns. -/
def sweep : Tree ι α → Tree ι α × Nat
  | .literal l v => (.literal l v, 0)
  | .var l name => (.var l name, 0)
  | .infinity l => (.infinity l, 0)
  | .negate l t =>
    let (t, n) := sweep t
    (.negate l t, n)
  | .binary l op a b =>
    let r := turnAll op a b
    have := size_turnAll op a b
    let (left, m) := sweep r.left
    let (right, n) := sweep r.right
    (.binary l r.op left right, r.turns + m + n)
  | .list l items =>
    let (items, n) := sweepAll items
    (.list l items, n)
termination_by t => (t.size, 0)
decreasing_by
  all_goals
    simp only [Prod.lex_def, Tree.size]
    omega

/-- One sweep through several trees. -/
def sweepAll : List (Tree ι α) → List (Tree ι α) × Nat
  | [] => ([], 0)
  | t :: ts =>
    let (t, m) := sweep t
    let (ts, n) := sweepAll ts
    (t :: ts, m + n)
termination_by ts => (Tree.sizeAll ts, 1)
decreasing_by
  all_goals
    have := Tree.size_pos ‹Tree ι α›
    simp only [Prod.lex_def, Tree.sizeAll]
    omega

end

/-- The number of sweeps after which normalization gives up. -/
def maxSweeps : Nat := 256

/-- Sweeps until a sweep makes no turn; answers the total number of turns. -/
def sweepUntil : Nat → Tree ι α → Nat → Tree ι α × Nat
  | 0, t, total => (t, total)
  | fuel + 1, t, total =>
    match sweep t with
    | (t, 0) => (t, total)
    | (t, n + 1) => sweepUntil fuel t (total + (n + 1))

end SignalFlow.Rewrite

/-- Makes the chains of an expression lean to the left; answers the number of turns. -/
def SignalFlow.Expr.normalizeChains {α : Type} (e : Expr α) : Expr α × Nat :=
  let (tree, n) := Rewrite.sweepUntil Rewrite.maxSweeps e.tree 0
  ({ e with tree }, n)
