import SignalFlow.Expr.Basic

/-!
# Editing an expression

Each operation names the nodes it works on by handle and refuses a handle that is not live. An operation that fails
leaves the expression as it was. Nodes that leave the expression free their slots, the topmost first and the last
operand before the others; nodes that come in are copies.
-/

namespace SignalFlow.Expr

variable {α : Type}

/-- The largest number of nodes for which room can be asked is below this one. -/
def roomLimit : Nat := Nat.pow 2 63 - 1

/-- Makes room for `n` more nodes. -/
def reserve (e : Expr α) (n : Nat) : Except ExprError (Expr α) :=
  if n < roomLimit then .ok e else .error .outOfMemory

/-- The live node at a handle. -/
def live (e : Expr α) (i : Id) : Except ExprError (Tree Id α) :=
  match e.node? i with
  | some t => .ok t
  | none => .error (.invalidNode (.notLive i))

/-- The live subtree whose root has the node as an operand. -/
def holder (e : Expr α) (i : Id) : Except ExprError (Tree Id α) :=
  match e.holder? i with
  | some t => .ok t
  | none => .error .noParent

/-- Changes the subtree at a handle, in whichever tree it is. -/
def update (e : Expr α) (i : Id) (f : Tree Id α → Tree Id α) : Expr α :=
  { e with tree := e.tree.update i f, detached := Tree.updateAll i f e.detached }

/-- Frees slots. -/
def release (e : Expr α) (freed : List Id) : Expr α := { e with slots := e.slots.release freed }

/-- Copies an expression in, without putting it anywhere yet; answers the handle of the copy. -/
def graft (e f : Expr α) : Id × Expr α :=
  let (t, slots) := f.tree.place e.slots
  (t.label, { e with detached := e.detached ++ [t], slots })

/-- **Puts a copy of `r` in the place of a node** and answers what was there. -/
def replace (e : Expr α) (i : Id) (r : Expr α) : Except ExprError (Expr α × Expr α) := do
  let old ← e.live i
  let (new, slots) := r.tree.place e.slots
  return (ofTree old, ({ e with slots }.update i fun _ => new).release old.discard)

/-- The labels that become free when only the operand `keep` of a tree stays. -/
def discardExcept (keep : Id) (t : Tree Id α) : List Id :=
  t.label :: Tree.discardAllOnto (t.children.filter (·.label ≠ keep)) []

/-- **Puts a node in the place of its parent**, dropping the parent and its other operands. -/
def collapse (e : Expr α) (i : Id) : Except ExprError (Expr α) := do
  let t ← e.live i
  let p ← e.holder i
  return (e.update p.label fun _ => t).release (discardExcept i p)

/-- **Takes an item out of its argument list** and answers it. -/
def unlink (e : Expr α) (i : Id) : Except ExprError (Expr α × Expr α) := do
  let t ← e.live i
  let p ← e.holder i
  match p with
  | .list l items =>
    let rest := items.filter (·.label ≠ i)
    return (ofTree t, (e.update l fun _ => .list l rest).release t.discard)
  | _ => throw .fixedArityParent

/-- Exchanges the operands of a binary operator. -/
def swap (e : Expr α) (i : Id) : Except ExprError (Expr α) := do
  match ← e.live i with
  | .binary l op a b => return e.update i fun _ => .binary l op b a
  | _ => throw (.invalidNode (.notBinary i))

/-- Changes a binary operator. -/
def setOp (e : Expr α) (i : Id) (op : BinaryOp) : Except ExprError (Expr α) := do
  match ← e.live i with
  | .binary l _ a b => return e.update i fun _ => .binary l op a b
  | _ => throw (.invalidNode (.notBinary i))

/-- **Turns a node into a literal**, dropping what was below it. -/
def morph (e : Expr α) (i : Id) (v : α) : Except ExprError (Expr α) := do
  let t ← e.live i
  return (e.update i fun _ => .literal t.label v).release (t.children.flatMap Tree.discard)

end SignalFlow.Expr
