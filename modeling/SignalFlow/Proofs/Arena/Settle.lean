import SignalFlow.Proofs.Arena.Pass
import SignalFlow.Reader.Call

/-!
# Calls and groups in an arena

What is done to an arena that a text was just read into, write by write. As long as there is a variable `exp`, the first
one is found. The list that it takes is looked up from below, by the parents of the nodes; the argument is moved out of
it into a power, the power is put in the place of `exp`, and the list is dropped with the product that held it. Then
lists of one item are replaced by their items, round by round, until a round finds none.
-/

namespace SignalFlow.Arena

variable {α : Type}

open Step Reader

namespace Node

/-- The name of a variable. -/
def name? : Node α → Option String
  | .var name => some name
  | _ => none

/-- Whether a node is a sign. -/
def isNegate : Node α → Bool
  | .negate _ => true
  | _ => false

/-- Whether a node is a product. -/
def isProduct : Node α → Bool
  | .binary op _ _ => op == .mul
  | _ => false

end Node

/-! ## Looking up a call -/

/-- The node at a handle; there must be one. -/
def get (a : Arena α) (i : Id) : Except Panic (Node α) :=
  match a.node? i with
  | some n => .ok n
  | none => .error (.stale i)

/-- The first of some nodes that is a variable of a name. -/
def firstNamed (a : Arena α) (name : String) : List Id → Except Panic (Option Id)
  | [] => .ok none
  | i :: rest => do
    let n ← a.get i
    if n.name? = some name then return some i else a.firstNamed name rest

/-- **The first variable of a name** below the root, parents before children. -/
def findVariable (a : Arena α) (name : String) : Except Panic (Option Id) := do
  let order ← a.preorderFrom a.root
  a.firstNamed name order

/-- Climbs from a node as long as the node above satisfies `p`. -/
def climbLoop (a : Arena α) (p : Node α → Bool) : Nat → Id → Except Panic Id
  | 0, _ => .error .endless
  | fuel + 1, i =>
    match a.parent? i with
    | none => .ok i
    | some j => do
      let n ← a.get j
      if p n then a.climbLoop p fuel j else return i

/-- **The last node above a node** on the way up through nodes that satisfy `p`. -/
def climb (a : Arena α) (p : Node α → Bool) (i : Id) : Except Panic Id := a.climbLoop p a.limit i

/-- The factors of the nodes on a stack. -/
def factorsLoop (a : Arena α) : Nat → List Id → Except Panic (List Id)
  | _, [] => .ok []
  | 0, _ :: _ => .error .endless
  | fuel + 1, i :: stack => do
    match ← a.get i with
    | .binary .mul left right => a.factorsLoop fuel (left :: right :: stack)
    | _ =>
      let others ← a.factorsLoop fuel stack
      return i :: others

/-- **The factors of a product**, left to right. -/
def factorsFrom (a : Arena α) (i : Id) : Except Panic (List Id) := a.factorsLoop a.limit [i]

/-- The list that a call takes and the argument in it, given the factor that follows. -/
def argumentAt (a : Arena α) : Option Id → Except Panic (Except CallFault (Id × Id))
  | none => .ok (.error .missingArguments)
  | some i => do
    match ← a.get i with
    | .list [argument] => return .ok (i, argument)
    | .list _ => return .error .notOneArgument
    | _ => return .error .notFollowed

/-- The list that a factor takes if it is a call, and the argument in it. Its product goes up as far as there are
products. -/
def argumentOf (a : Arena α) (factor : Id) : Except Panic (Except CallFault (Id × Id)) :=
  match a.parent? factor with
  | none => .ok (.error .notFollowed)
  | some p => do
    let n ← a.get p
    if n.isProduct then
      let chain ← a.climb Node.isProduct p
      let factors ← a.factorsFrom chain
      match factors.idxOf? factor with
      | none => return .error .outsideProduct
      | some k => a.argumentAt factors[k + 1]?
    else return .error .notFollowed

/-- **The list that the call at a variable takes, and the argument in it.** The signs in front of the variable belong to
the factor. -/
def callOf (a : Arena α) (i : Id) : Except Panic (Except CallFault (Id × Id)) := do
  let factor ← a.climb Node.isNegate i
  a.argumentOf factor

/-! ## Expanding calls -/

/-- Moves the argument of a call out of its list. -/
def moveArgument (list argument : Id) : Step α Unit := do
  setNode list (.list [])
  setParent argument none

/-- Puts the power of an argument in the place of a variable. -/
def plantPower (i argument : Id) : Step α Unit := do
  let base ← alloc (.var baseName)
  let power ← alloc (.binary .pow base argument)
  relink i power
  freeTree i

/-- Drops a list that is empty, with the product that holds it. -/
def dropList (list : Id) : Step α Unit := do
  let holder ← parentAt list
  let operands ← look fun a => .ok (a.children holder)
  match operands.find? (· ≠ list) with
  | some sibling => collapse sibling
  | none => throw .noParent

/-- **Makes the power of a call**, given its variable, its list and its argument. -/
def graftPower (i list argument : Id) : Step α Unit := do
  moveArgument list argument
  plantPower i argument
  dropList list

/-- Expands the call at a variable. -/
def rewriteCall (i : Id) : Step α Unit := do
  match ← look fun a => a.callOf i with
  | .ok (list, argument) => graftPower i list argument
  | .error f => throw (.malformedCall f)

/-- Expands calls until there is none, and counts them. -/
def replaceCallsLoop : Nat → Nat → Step α Nat
  | 0, _ => look fun _ => .error .endless
  | fuel + 1, n => do
    match ← look fun a => a.findVariable expName with
    | some i =>
      rewriteCall i
      replaceCallsLoop fuel (n + 1)
    | none => return n

/-- **Expands all calls**, the first one first. -/
def replaceCalls : Step α Nat := do
  let fuel ← look fun a => .ok a.limit
  replaceCallsLoop fuel 0

/-! ## Dissolving groups -/

/-- Replaces a list of one item by the item; a handle that is dead by now is passed over. -/
def ungroupAt (i : Id) : Step α Bool := do
  match ← look fun a => .ok (a.node? i) with
  | some (.list [item]) =>
    collapse item
    return true
  | _ => return false

/-- Rounds until one replaces no list; answers how many were replaced. -/
def collapseListsLoop : Nat → Nat → Step α Nat
  | 0, _ => look fun _ => .error .endless
  | fuel + 1, total => do
    match ← visitAll ungroupAt with
    | 0 => return total
    | n + 1 => collapseListsLoop fuel (total + (n + 1))

/-- **Replaces every list of one item by the item.** -/
def collapseLists : Step α Nat := do
  let fuel ← look fun a => .ok a.limit
  collapseListsLoop fuel 0

/-- **Expands the calls and dissolves the groups** of what was read; answers how many of each there were. -/
def settle : Step α (Nat × Nat) := do
  let calls ← replaceCalls
  let groups ← collapseLists
  return (calls, groups)

end SignalFlow.Arena
