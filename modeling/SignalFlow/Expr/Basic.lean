import SignalFlow.Slots
import SignalFlow.Tree.Text
import SignalFlow.Expr.Error

/-!
# Editable expressions

An `Expr` is a tree whose nodes have handles, together with trees that were copied in but not yet put anywhere, and the
state of the slots. A handle stays valid while its node lives, whatever happens elsewhere in the expression.

The views `node?`, `parent?`, `children`, `preorderFrom` and `postorderFrom` answer by handle; `check` compares the
tree with the slots.
-/

namespace SignalFlow

/-- **An expression whose nodes have handles.** -/
structure Expr (α : Type) where
  tree : Tree Id α
  /-- Trees copied in and not yet part of the expression. -/
  detached : List (Tree Id α) := []
  slots : Slots

namespace Expr

variable {ι α : Type}

/-! ## Construction -/

/-- The expression of a tree, in slots of its own. -/
def ofTree (t : Tree ι α) : Expr α :=
  let (tree, slots) := t.place {}
  { tree, slots }

instance : Inhabited (Expr α) := ⟨ofTree (.infinity () : Term α)⟩

/-- A literal. -/
def literal (v : α) : Expr α := ofTree (.literal () v : Term α)

/-- A variable. -/
def var (name : String) : Expr α := ofTree (.var () name : Term α)

/-- Infinity. -/
def infinity : Expr α := ofTree (.infinity () : Term α)

/-- The negation of an expression. -/
def negate (e : Expr α) : Expr α :=
  let (i, slots) := e.slots.take
  { e with tree := .negate i e.tree, slots }

/-- Two expressions joined by an operator. The nodes of the left one keep their handles. -/
def binary (op : BinaryOp) (e f : Expr α) : Expr α :=
  let (right, slots) := f.tree.place e.slots
  let (i, slots) := slots.take
  { e with tree := .binary i op e.tree right, slots }

/-- An argument list; it cannot be empty. The nodes of the first item keep their handles. -/
def list : List (Expr α) → Except ExprError (Expr α)
  | [] => .error (.invalidNode .emptyList)
  | e :: rest =>
    let (others, slots) := Tree.placeAll (rest.map tree) e.slots
    let (i, slots) := slots.take
    .ok { e with tree := .list i (e.tree :: others), slots }

/-! ## Views -/

/-- The handle of the root. -/
def root (e : Expr α) : Id := e.tree.label

/-- The number of live nodes, detached ones included. -/
def size (e : Expr α) : Nat := e.slots.live

/-- All trees of an expression. -/
def forest (e : Expr α) : List (Tree Id α) := e.tree :: e.detached

/-- The subtree at a handle, if its node is live. -/
def node? (e : Expr α) (i : Id) : Option (Tree Id α) := e.forest.findSome? (·.find? i)

/-- The subtree whose root has the node as an operand. -/
def holder? (e : Expr α) (i : Id) : Option (Tree Id α) := e.forest.findSome? (·.parentOf? i)

/-- The parent of a node. -/
def parent? (e : Expr α) (i : Id) : Option Id := (e.holder? i).map Tree.label

/-- The operands of a node; a dead node has none. -/
def children (e : Expr α) (i : Id) : List Id :=
  match e.node? i with
  | some t => t.children.map Tree.label
  | none => []

/-- The nodes at and below a node, parents first; a dead node stands alone. -/
def preorderFrom (e : Expr α) (i : Id) : List Id :=
  match e.node? i with
  | some t => t.preorder.map Tree.label
  | none => [i]

/-- The nodes at and below a node, children first; a dead node stands alone. -/
def postorderFrom (e : Expr α) (i : Id) : List Id :=
  match e.node? i with
  | some t => t.postorder.map Tree.label
  | none => [i]

/-- The first variable of a name, in preorder. -/
def findVar? (e : Expr α) (name : String) : Option Id :=
  (e.tree.preorder.find? (·.name? = some name)).map Tree.label

/-- The live node at a handle. -/
def nodeAt (e : Expr α) (i : Id) : Except AccessError (Tree Id α) :=
  match e.node? i with
  | some t => .ok t
  | none => .error (.staleNode i)

/-- A copy of the subtree at a handle, as an expression of its own. -/
def subtree (e : Expr α) (i : Id) : Except AccessError (Expr α) := (e.nodeAt i).map ofTree

/-- Whether the subtrees at two handles of two expressions agree. -/
def sameAt [Scalar α] (e : Expr α) (i : Id) (f : Expr α) (j : Id) : Except AccessError Bool := do
  let t ← e.nodeAt i
  let u ← f.nodeAt j
  return t.same u

/-- Whether two expressions agree, whatever their handles. -/
def same [Scalar α] (e f : Expr α) : Bool := e.tree.same f.tree

/-- The value of an expression that is a single literal. -/
def literal? (e : Expr α) : Option α := e.tree.literal?

/-- The text of an expression. -/
def text [Scalar α] (e : Expr α) : String := e.tree.text

/-! ## Consistency -/

/-- Marks the slots of the labels; fails at the first that is marked already. -/
def markAll (fault : Id → NodeFault) : List Id → Array Bool → Except NodeFault (Array Bool)
  | [], marks => .ok marks
  | i :: rest, marks =>
    if marks[i.index]?.getD false then .error (fault i) else markAll fault rest (marks.setIfInBounds i.index true)

/-- **Whether the tree and the slots agree**: the nodes of the tree have live slots of their own, and no other slot is
live. -/
def check (e : Expr α) : Except ExprError Unit := do
  let labels := e.tree.labels
  let marks := e.slots.free.foldl (fun marks i => marks.setIfInBounds i.index true)
    (Array.replicate e.slots.size false)
  if let some i := labels.find? fun i => marks[i.index]?.getD true then
    throw (.invalidNode (.free i))
  match markAll .repeated labels (Array.replicate e.slots.size false) with
  | .error f => throw (.invalidNode f)
  | .ok _ => pure ()
  unless labels.length = e.size do
    throw (.invalidNode (.unreached e.size labels.length))

end Expr

end SignalFlow
