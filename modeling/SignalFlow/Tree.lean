import SignalFlow.Operator
import SignalFlow.Id

/-!
# Expression trees

An expression is a tree of literals, variables, infinity, negations, binary operators and argument lists. Every node
carries a label: handles in an editable expression, nothing in a bare `Term`. Whatever does not depend on the labels is
defined for all of them at once.

The walks `preorder` and `postorder` list the subtrees of a tree; `same` decides whether two trees agree up to labels.
-/

namespace SignalFlow

/-- **An expression tree** with labels in `ι` and literals in `α`. -/
inductive Tree (ι α : Type) where
  | literal (label : ι) (value : α)
  | var (label : ι) (name : String)
  /-- Infinity, written `oo`. -/
  | infinity (label : ι)
  | negate (label : ι) (operand : Tree ι α)
  | binary (label : ι) (op : BinaryOp) (left right : Tree ι α)
  /-- A parenthesized argument list. -/
  | list (label : ι) (items : List (Tree ι α))

/-- A tree without labels. -/
abbrev Term (α : Type) := Tree Unit α

namespace Tree

variable {ι κ α : Type}

instance [Inhabited ι] : Inhabited (Tree ι α) := ⟨.infinity default⟩

/-- The label of the root. -/
def label : Tree ι α → ι
  | .literal l _ | .var l _ | .infinity l | .negate l _ | .binary l _ _ _ | .list l _ => l

/-- The operands of the root, left to right. -/
def children : Tree ι α → List (Tree ι α)
  | .literal _ _ | .var _ _ | .infinity _ => []
  | .negate _ t => [t]
  | .binary _ _ a b => [a, b]
  | .list _ items => items

/-- The value of a literal. -/
def literal? : Tree ι α → Option α
  | .literal _ v => some v
  | _ => none

/-- The operator at the root. -/
def op? : Tree ι α → Option BinaryOp
  | .binary _ op _ _ => some op
  | _ => none

/-- Whether the root is a sum or a difference. -/
def isAdditive (t : Tree ι α) : Bool := t.op?.any BinaryOp.isAdditive

/-- Whether the root is a literal equal to `v`. -/
def isLiteral [Scalar α] (t : Tree ι α) (v : α) : Bool := t.literal?.any (Scalar.eq · v)

/-! ## Size -/

mutual

/-- The number of nodes. -/
def size : Tree ι α → Nat
  | .literal _ _ | .var _ _ | .infinity _ => 1
  | .negate _ t => t.size + 1
  | .binary _ _ a b => a.size + b.size + 1
  | .list _ items => sizeAll items + 1

/-- The number of nodes of several trees. -/
def sizeAll : List (Tree ι α) → Nat
  | [] => 0
  | t :: ts => t.size + sizeAll ts

end

/-- A tree has at least one node. -/
theorem size_pos (t : Tree ι α) : 0 < t.size := by
  cases t <;> simp [size]

/-! ## Walks -/

mutual

/-- The subtrees of a tree, parents before children and left to right, followed by `rest`. -/
def preorderOnto : Tree ι α → List (Tree ι α) → List (Tree ι α)
  | .literal l v, rest => .literal l v :: rest
  | .var l name, rest => .var l name :: rest
  | .infinity l, rest => .infinity l :: rest
  | .negate l t, rest => .negate l t :: t.preorderOnto rest
  | .binary l op a b, rest => .binary l op a b :: a.preorderOnto (b.preorderOnto rest)
  | .list l items, rest => .list l items :: preorderAllOnto items rest

/-- The subtrees of several trees, one tree after the other. -/
def preorderAllOnto : List (Tree ι α) → List (Tree ι α) → List (Tree ι α)
  | [], rest => rest
  | t :: ts, rest => t.preorderOnto (preorderAllOnto ts rest)

end

/-- **The subtrees of a tree**, parents before children, left to right. -/
def preorder (t : Tree ι α) : List (Tree ι α) := t.preorderOnto []

mutual

/-- The subtrees of a tree, children before parents and left to right, followed by `rest`. -/
def postorderOnto : Tree ι α → List (Tree ι α) → List (Tree ι α)
  | .literal l v, rest => .literal l v :: rest
  | .var l name, rest => .var l name :: rest
  | .infinity l, rest => .infinity l :: rest
  | .negate l t, rest => t.postorderOnto (.negate l t :: rest)
  | .binary l op a b, rest => a.postorderOnto (b.postorderOnto (.binary l op a b :: rest))
  | .list l items, rest => postorderAllOnto items (.list l items :: rest)

/-- The subtrees of several trees, one tree after the other. -/
def postorderAllOnto : List (Tree ι α) → List (Tree ι α) → List (Tree ι α)
  | [], rest => rest
  | t :: ts, rest => t.postorderOnto (postorderAllOnto ts rest)

end

/-- The subtrees of a tree, children before parents, left to right. -/
def postorder (t : Tree ι α) : List (Tree ι α) := t.postorderOnto []

/-- The labels of a tree in preorder. -/
def labels (t : Tree ι α) : List ι := t.preorder.map label

mutual

/-- The labels of a tree, followed by `rest`: a node before its children, the last child first. This is the order in
which the places of a discarded tree become free. -/
def discardOnto : Tree ι α → List ι → List ι
  | .literal l _, rest | .var l _, rest | .infinity l, rest => l :: rest
  | .negate l t, rest => l :: t.discardOnto rest
  | .binary l _ a b, rest => l :: b.discardOnto (a.discardOnto rest)
  | .list l items, rest => l :: discardAllOnto items rest

/-- The labels of several trees, the last tree first. -/
def discardAllOnto : List (Tree ι α) → List ι → List ι
  | [], rest => rest
  | t :: ts, rest => discardAllOnto ts (t.discardOnto rest)

end

/-- The labels of a tree in the order in which its places become free. -/
def discard (t : Tree ι α) : List ι := t.discardOnto []

/-! ## Labels -/

mutual

/-- The same tree with other labels. -/
def relabel (f : ι → κ) : Tree ι α → Tree κ α
  | .literal l v => .literal (f l) v
  | .var l name => .var (f l) name
  | .infinity l => .infinity (f l)
  | .negate l t => .negate (f l) (t.relabel f)
  | .binary l op a b => .binary (f l) op (a.relabel f) (b.relabel f)
  | .list l items => .list (f l) (relabelAll f items)

/-- The same trees with other labels. -/
def relabelAll (f : ι → κ) : List (Tree ι α) → List (Tree κ α)
  | [] => []
  | t :: ts => t.relabel f :: relabelAll f ts

end

/-- The bare tree. -/
def term (t : Tree ι α) : Term α := t.relabel fun _ => ()

/-! ## Comparison -/

mutual

/-- **Whether two trees agree up to labels**: the same shape, operators and names, literals equal as numbers or both no
numbers. -/
def same [Scalar α] : Tree ι α → Tree κ α → Bool
  | .literal _ v, .literal _ w => Scalar.same v w
  | .var _ name, .var _ other => name == other
  | .infinity _, .infinity _ => true
  | .negate _ t, .negate _ u => t.same u
  | .binary _ op a b, .binary _ op' a' b' => op == op' && (a.same a' && b.same b')
  | .list _ items, .list _ others => sameAll items others
  | _, _ => false

/-- Whether two lists of trees agree item by item. -/
def sameAll [Scalar α] : List (Tree ι α) → List (Tree κ α) → Bool
  | [], [] => true
  | t :: ts, u :: us => t.same u && sameAll ts us
  | _, _ => false

end

/-! ## Contents -/

/-- The name of a variable. -/
def name? : Tree ι α → Option String
  | .var _ name => some name
  | _ => none

/-- Whether the root is infinity. -/
def isInfinity : Tree ι α → Bool
  | .infinity _ => true
  | _ => false

/-- Whether infinity occurs in a tree. -/
def hasInfinity (t : Tree ι α) : Bool := t.preorder.any isInfinity

/-- A sorted list without neighbours that are equal. -/
def dedupSorted : List String → List String
  | [] => []
  | [x] => [x]
  | x :: y :: rest => if x == y then dedupSorted (y :: rest) else x :: dedupSorted (y :: rest)

/-- The distinct names of variables, in alphabetical order. -/
def variableNames (t : Tree ι α) : List String :=
  dedupSorted ((t.preorder.filterMap name?).mergeSort fun a b => decide (a ≤ b))

/-! ## Changing one node -/

mutual

/-- The tree with the subtrees at label `i` changed by `f`. -/
def update [DecidableEq ι] (i : ι) (f : Tree ι α → Tree ι α) : Tree ι α → Tree ι α
  | .literal l v => if l = i then f (.literal l v) else .literal l v
  | .var l name => if l = i then f (.var l name) else .var l name
  | .infinity l => if l = i then f (.infinity l) else .infinity l
  | .negate l t => if l = i then f (.negate l t) else .negate l (t.update i f)
  | .binary l op a b => if l = i then f (.binary l op a b) else .binary l op (a.update i f) (b.update i f)
  | .list l items => if l = i then f (.list l items) else .list l (updateAll i f items)

/-- The trees with the subtrees at label `i` changed by `f`. -/
def updateAll [DecidableEq ι] (i : ι) (f : Tree ι α → Tree ι α) : List (Tree ι α) → List (Tree ι α)
  | [] => []
  | t :: ts => t.update i f :: updateAll i f ts

end

/-- The subtree at label `i`. -/
def find? [DecidableEq ι] (i : ι) (t : Tree ι α) : Option (Tree ι α) := t.preorder.find? (·.label = i)

/-- Whether the node at label `i` is an operand of the root. -/
def hasChild [DecidableEq ι] (i : ι) (t : Tree ι α) : Bool := t.children.any (·.label = i)

/-- The subtree of which the node at label `i` is an operand. -/
def parentOf? [DecidableEq ι] (i : ι) (t : Tree ι α) : Option (Tree ι α) := t.preorder.find? (hasChild i)

end Tree

end SignalFlow
