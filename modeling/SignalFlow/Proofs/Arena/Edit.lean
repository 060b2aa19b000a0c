import SignalFlow.Expr.Edit
import SignalFlow.Proofs.Arena.Basic

/-!
# Editing an arena

The operations on expressions, on an arena: joining, copying in, and surgery at handles that may be dead. Each is
refused when a handle that it works on is not live; reading a node by a dead handle (`nodeAt`, `subtree`, `sameAt`)
panics instead.
-/

namespace SignalFlow.Arena

variable {α : Type}

open Step

/-! ## Copying -/

/-- Copies all of another arena in, without putting it anywhere. -/
def graft (f : Arena α) : Step α Id := copyFrom f f.root

/-- Copies several arenas in. -/
def grafts : List (Arena α) → Step α (List Id)
  | [] => pure []
  | f :: rest => do
    let i ← graft f
    let is ← grafts rest
    return i :: is

/-- **A copy of a node and what is below it**, in an arena of its own. -/
def subtree (a : Arena α) (i : Id) : Except Panic (Arena α) := build (copyFrom a i)

/-! ## Joining -/

/-- Negates the root. -/
def negate : Step α Unit := do
  let child ← rootId
  let i ← alloc (.negate child)
  setRoot i

/-- Joins the root with a copy of another arena by an operator. -/
def binary (op : BinaryOp) (f : Arena α) : Step α Unit := do
  let left ← rootId
  let right ← graft f
  let i ← alloc (.binary op left right)
  setRoot i

/-- Makes an argument list of the root and copies of other arenas. -/
def list (rest : List (Arena α)) : Step α Unit := do
  let first ← rootId
  let others ← grafts rest
  let i ← alloc (.list (first :: others))
  setRoot i

/-! ## Surgery -/

/-- Refuses a handle that is not live. -/
def checkLive (i : Id) : Step α Unit := do
  let n ← look fun a => .ok (a.node? i)
  match n with
  | some _ => pure ()
  | none => throw (.invalidNode (.notLive i))

/-- The node that a node is an operand of. -/
def parentAt (i : Id) : Step α Id := do
  let p ← look fun a => .ok (a.parent? i)
  match p with
  | some p => pure p
  | none => throw .noParent

/-- **Puts a copy of another arena in the place of a node**; answers what was there. -/
def replace (i : Id) (f : Arena α) : Step α (Arena α) := do
  checkLive i
  let removed ← look fun a => a.subtree i
  let new ← graft f
  relink i new
  freeTree i
  return removed

/-- **Puts a node in the place of its parent**, dropping the parent and its other operands. -/
def collapse (i : Id) : Step α Unit := do
  checkLive i
  let p ← parentAt i
  relink p i
  freeExcept p (some i)

/-- **Takes an item out of its argument list** and answers it. -/
def unlink (i : Id) : Step α (Arena α) := do
  checkLive i
  let p ← parentAt i
  match ← nodeAt p with
  | .list items => setNode p (.list (items.filter (· ≠ i)))
  | _ => throw .fixedArityParent
  setParent i none
  let removed ← look fun a => a.subtree i
  freeTree i
  return removed

/-- Exchanges the operands of a binary operator. -/
def swap (i : Id) : Step α Unit := do
  checkLive i
  match ← nodeAt i with
  | .binary op a b => setNode i (.binary op b a)
  | _ => throw (.invalidNode (.notBinary i))

/-- Changes a binary operator. -/
def setOp (i : Id) (op : BinaryOp) : Step α Unit := do
  checkLive i
  match ← nodeAt i with
  | .binary _ a b => setNode i (.binary op a b)
  | _ => throw (.invalidNode (.notBinary i))

/-- **Turns a node into a literal**, dropping what was below it. -/
def morph (i : Id) (v : α) : Step α Unit := do
  checkLive i
  let n ← nodeAt i
  freeTrees n.children
  setNode i (.literal v)

/-! ## Comparison -/

/-- The operands of two nodes in pairs, if the nodes agree apart from them. -/
def Node.pairs? [Scalar α] : Node α → Node α → Option (List (Id × Id))
  | .literal v, .literal w => if Scalar.same v w then some [] else none
  | .var name, .var other => if name == other then some [] else none
  | .infinity, .infinity => some []
  | .negate c, .negate d => some [(c, d)]
  | .binary op a b, .binary op' a' b' => if op == op' then some [(a, a'), (b, b')] else none
  | .list items, .list others => if items.length = others.length then some (items.zip others) else none
  | _, _ => none

/-- Whether the pairs on a stack agree, and what is below them. -/
def sameLoop [Scalar α] (a b : Arena α) : Nat → List (Id × Id) → Except Panic Bool
  | _, [] => .ok true
  | 0, _ :: _ => .error .endless
  | fuel + 1, (i, j) :: stack =>
    match a.node? i, b.node? j with
    | none, _ => .error (.stale i)
    | _, none => .error (.stale j)
    | some m, some n =>
      match m.pairs? n with
      | some pairs => a.sameLoop b fuel (pairs.reverse ++ stack)
      | none => .ok false

/-- **Whether a node of one arena and a node of another agree**, and what is below them. -/
def sameAt [Scalar α] (a : Arena α) (i : Id) (b : Arena α) (j : Id) : Except Panic Bool :=
  a.sameLoop b a.limit [(i, j)]

/-! ## Consistency -/

/-- **What can be wrong with the handles of an arena.** -/
inductive Flaw where
  | deadRoot
  | rootWithParent
  /-- A dead node is an operand. -/
  | dangling (i : Id)
  /-- A node is reached twice. -/
  | repeated (i : Id)
  /-- An operand has another parent. -/
  | strayParent (i : Id)
  /-- Some live nodes are not reached from the root. -/
  | unreached (live reached : Nat)
deriving DecidableEq

/-- Walks through the nodes on a stack and below them; answers how many there are. -/
def checkLoop (a : Arena α) : Nat → List Id → List Id → Except Panic (Except Flaw Nat)
  | _, [], seen => .ok (.ok seen.length)
  | 0, _ :: _, _ => .error .endless
  | fuel + 1, i :: stack, seen =>
    if (a.node? i).isNone then .ok (.error (.dangling i))
    else if i ∈ seen then .ok (.error (.repeated i))
    else
      match (a.children i).find? fun c => a.parent? c ≠ some i with
      | some c => .ok (.error (.strayParent c))
      | none => a.checkLoop fuel ((a.children i).reverse ++ stack) (i :: seen)

/-- **Whether the handles of an arena are in order**: every node is reached from the root once and knows its parent. -/
def check (a : Arena α) : Except Panic (Except Flaw Unit) :=
  if (a.node? a.root).isNone then .ok (.error .deadRoot)
  else if (a.parent? a.root).isSome then .ok (.error .rootWithParent)
  else (a.checkLoop a.limit [a.root] []).map fun r => r.bind fun reached =>
    if reached = a.live then .ok () else .error (.unreached a.live reached)

end SignalFlow.Arena
