import SignalFlow.Expr.Basic

/-!
# Arenas

An editable expression can be kept in an arena: every node sits in a numbered slot and knows its operands, and the node
it is an operand of, by handle. Slots that became free are stacked up and used again. Nothing in the data keeps the
handles of an arena in order, this is up to the steps that change it.

A `Step` changes an arena write by write. It succeeds, or it is refused and leaves what it has written by then, or it
panics: it reads a slot where no node is, or it walks for longer than there are slots, as on a cycle. This module has
the steps that the operations on expressions are made of.
-/

namespace SignalFlow

namespace Arena

/-! ## Arenas -/

/-- **A node**, its operands by handle. -/
inductive Node (α : Type) where
  | literal (value : α)
  | var (name : String)
  | infinity
  | negate (operand : Id)
  | binary (op : BinaryOp) (left right : Id)
  | list (items : List Id)

namespace Node

variable {α : Type}

/-- The operands of a node, left to right. -/
def children : Node α → List Id
  | .literal _ | .var _ | .infinity => []
  | .negate c => [c]
  | .binary _ a b => [a, b]
  | .list items => items

/-- The value of a literal. -/
def literal? : Node α → Option α
  | .literal v => some v
  | _ => none

/-- The operator of a binary node. -/
def op? : Node α → Option BinaryOp
  | .binary op _ _ => some op
  | _ => none

/-- Whether a node is a sum or a difference. -/
def isAdditive (n : Node α) : Bool := n.op?.any BinaryOp.isAdditive

/-- The node with other operands. -/
def mapChildren (f : Id → Id) : Node α → Node α
  | .literal v => .literal v
  | .var name => .var name
  | .infinity => .infinity
  | .negate c => .negate (f c)
  | .binary op a b => .binary op (f a) (f b)
  | .list items => .list (items.map f)

/-- The node with `new` wherever `old` is an operand. -/
def retarget (old new : Id) (n : Node α) : Node α := n.mapChildren fun c => if c = old then new else c

/-- The node with the given operands in place of its first ones. -/
def withChildren : Node α → List Id → Node α
  | .negate _, c :: _ => .negate c
  | .binary op _ _, a :: b :: _ => .binary op a b
  | .binary op _ b, [a] => .binary op a b
  | .list items, cs => .list (cs ++ items.drop cs.length)
  | n, _ => n

end Node

/-- **What a slot holds**: a node, and the node that it is an operand of. -/
structure Cell (α : Type) where
  node : Node α
  parent : Option Id

end Arena

/-- **An arena**: its slots, the stack of free ones, and the root. -/
structure Arena (α : Type) where
  slots : Array (Option (Arena.Cell α))
  free : List Id
  root : Id

namespace Arena

variable {α β γ : Type}

/-- What is in a slot. -/
def slot? (a : Arena α) (i : Id) : Option (Cell α) := a.slots[i.index]?.join

/-- The node at a handle. -/
def node? (a : Arena α) (i : Id) : Option (Node α) := (a.slot? i).map Cell.node

/-- The node that the node at a handle is an operand of. -/
def parent? (a : Arena α) (i : Id) : Option Id := (a.slot? i).bind Cell.parent

/-- The operands of the node at a handle; a dead node has none. -/
def children (a : Arena α) (i : Id) : List Id := ((a.node? i).map Node.children).getD []

/-- The number of live nodes. -/
def live (a : Arena α) : Nat := a.slots.size - a.free.length

/-- The largest number of steps of a walk. -/
def limit (a : Arena α) : Nat := a.slots.size + 1

/-- An arena without nodes. -/
def unrooted : Arena α := ⟨#[], [], ⟨0⟩⟩

/-- Overwrites a slot. -/
def put (a : Arena α) (i : Id) (c : Option (Cell α)) : Arena α :=
  { a with slots := a.slots.setIfInBounds i.index c }

/-! ## Steps -/

/-- **How a step can break down.** -/
inductive Panic where
  /-- There is no node at a handle. -/
  | stale (i : Id)
  /-- A walk does not end. -/
  | endless
deriving DecidableEq

/-- **A change of an arena in place.** -/
abbrev Step (α β : Type) := ExceptT ExprError (StateT (Arena α) (Except Panic)) β

namespace Step

/-- What a step answers on an arena, and the arena that it leaves. -/
def on (x : Step α β) (a : Arena α) : Except Panic (Except ExprError β × Arena α) := StateT.run (ExceptT.run x) a

/-- Looks something up. -/
def look (f : Arena α → Except Panic β) : Step α β := ExceptT.mk fun a => (f a).map fun b => (.ok b, a)

/-- Writes. -/
def write (f : Arena α → Arena α) : Step α Unit := ExceptT.mk fun a => .ok (.ok (), f a)

/-- Whether a step succeeds; it is performed in any case. -/
def attempt (x : Step α β) : Step α Bool := ExceptT.mk fun a => (x.on a).map fun r => (.ok r.1.isOk, r.2)

end Step

open Step

/-! ## Nodes and their parents -/

/-- The root. -/
def rootId : Step α Id := look fun a => .ok a.root

/-- Makes a node the root. -/
def setRoot (i : Id) : Step α Unit := write fun a => { a with root := i }

/-- The node at a handle; there must be one. -/
def nodeAt (i : Id) : Step α (Node α) :=
  look fun a => match a.node? i with
    | some n => .ok n
    | none => .error (.stale i)

/-- Overwrites the node at a handle; there must be one. It keeps its parent. -/
def setNode (i : Id) (n : Node α) : Step α Unit := do
  let _ ← nodeAt i
  write fun a => a.put i ((a.slot? i).map fun c => { c with node := n })

/-- Overwrites the parent of a node. -/
def setParent (i : Id) (p : Option Id) : Step α Unit :=
  write fun a => a.put i ((a.slot? i).map fun c => { c with parent := p })

/-- Overwrites the parents of nodes. -/
def setParents (p : Option Id) : List Id → Step α Unit
  | [] => pure ()
  | i :: rest => do
    setParent i p
    setParents p rest

/-- Makes a node the parent of its operands. -/
def adopt (i : Id) : Step α Unit := do
  let n ← nodeAt i
  setParents (some i) n.children

/-- Overwrites a node and makes it the parent of its operands. -/
def rewire (i : Id) (n : Node α) : Step α Unit := do
  setNode i n
  adopt i

/-! ## Slots -/

/-- A slot for a node: the last one that became free, or a new one. -/
def occupy (n : Node α) : Step α Id := do
  match ← look fun a => .ok a.free with
  | i :: rest =>
    look fun a => if i.index < a.slots.size then .ok () else .error (.stale i)
    write fun a => { a.put i (some ⟨n, none⟩) with free := rest }
    return i
  | [] =>
    let i : Id ← look fun a => .ok ⟨a.slots.size⟩
    write fun a => { a with slots := a.slots.push (some ⟨n, none⟩) }
    return i

/-- **Makes a node** and makes it the parent of its operands. -/
def alloc (n : Node α) : Step α Id := do
  let i ← occupy n
  adopt i
  return i

/-- Frees the nodes on a stack and below them, without those at and below `keep`. -/
def freeAll (keep : Option Id) : Nat → List Id → Step α Unit
  | _, [] => pure ()
  | 0, _ :: _ => look fun _ => .error .endless
  | fuel + 1, i :: stack =>
    if some i = keep then freeAll keep fuel stack
    else do
      match ← look fun a => .ok (a.slot? i) with
      | some c =>
        write fun a => { a.put i none with free := i :: a.free }
        freeAll keep fuel (c.node.children.reverse ++ stack)
      | none => freeAll keep fuel stack

/-- **Frees a node and what is below it**, without what is at and below `keep`. -/
def freeExcept (i : Id) (keep : Option Id) : Step α Unit := do
  let fuel ← look fun a => .ok a.limit
  freeAll keep fuel [i]

/-- Frees a node and what is below it. -/
def freeTree (i : Id) : Step α Unit := freeExcept i none

/-- Frees several nodes and what is below them. -/
def freeTrees : List Id → Step α Unit
  | [] => pure ()
  | i :: rest => do
    freeTree i
    freeTrees rest

/-- **Puts a node in the place of another**, which is left without a parent. -/
def relink (old new : Id) : Step α Unit := do
  let parent ← look fun a => .ok (a.parent? old)
  match parent with
  | some p => do
    let n ← nodeAt p
    setNode p (n.retarget old new)
  | none => write fun a => if a.root = old then { a with root := new } else a
  setParent old none
  setParent new parent

/-! ## Walks -/

/-- The nodes on a stack and below them, parents first and left to right. -/
def preorderLoop (a : Arena α) : Nat → List Id → Except Panic (List Id)
  | _, [] => .ok []
  | 0, _ :: _ => .error .endless
  | fuel + 1, i :: stack => (a.preorderLoop fuel (a.children i ++ stack)).map (i :: ·)

/-- **The nodes at and below a node**, parents before children. -/
def preorderFrom (a : Arena α) (i : Id) : Except Panic (List Id) := a.preorderLoop a.limit [i]

/-- The nodes on a stack and below them, each in front of those that were met before. -/
def postorderLoop (a : Arena α) : Nat → List Id → List Id → Except Panic (List Id)
  | _, [], met => .ok met
  | 0, _ :: _, _ => .error .endless
  | fuel + 1, i :: stack, met => a.postorderLoop fuel ((a.children i).reverse ++ stack) (i :: met)

/-- **The nodes at and below a node**, children before parents. -/
def postorderFrom (a : Arena α) (i : Id) : Except Panic (List Id) := a.postorderLoop a.limit [i] []

/-! ## Copies -/

/-- Copies nodes of another arena, operands before the nodes that have them. `done` holds the copies that are no
operands yet, the last one first. -/
def copyAll (source : Arena α) : List Id → List Id → Step α (List Id)
  | [], done => pure done
  | i :: rest, done => do
    let n ← look fun _ => match source.node? i with
      | some n => .ok n
      | none => .error (.stale i)
    let k := n.children.length
    let copy ← alloc (n.withChildren (done.take k).reverse)
    copyAll source rest (copy :: done.drop k)

/-- **Copies a node of another arena and what is below it**; answers the copy. -/
def copyFrom (source : Arena α) (i : Id) : Step α Id := do
  let order ← look fun _ => source.postorderFrom i
  let done ← copyAll source order []
  return done.headD i

/-- A step on an arena without nodes, and the arena it leaves, with the answer as its root. -/
def build (x : Step α Id) : Except Panic (Arena α) :=
  match (x >>= setRoot).on unrooted with
  | .ok (_, a) => .ok a
  | .error p => .error p

/-- An arena with one node. -/
def leaf (n : Node α) : Except Panic (Arena α) := build (alloc n)

end Arena

end SignalFlow
