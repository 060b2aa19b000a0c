import SignalFlow.Proofs.Arena.Edit
import SignalFlow.Rewrite.Simplify

/-!
# Rewriting an arena

The rewriting passes, on an arena. A pass lists the nodes below the root once, before it changes anything, and then
visits the handles of the list one by one. The nodes that it frees, makes and moves on its way are not listed again.
-/

namespace SignalFlow.Arena

variable {α : Type} [Scalar α]

open Step

/-- Visits nodes one by one and counts how many were rewritten. -/
def visit (rewrite : Id → Step α Bool) : List Id → Nat → Step α Nat
  | [], n => pure n
  | i :: rest, n => do
    let rewritten ← rewrite i
    visit rewrite rest (if rewritten then n + 1 else n)

/-- Visits the nodes below the root, operands before operators. -/
def visitAll (rewrite : Id → Step α Bool) : Step α Nat := do
  let order ← look fun a => a.postorderFrom a.root
  visit rewrite order 0

/-! ## Folding -/

/-- The value of an operator on literals, if it may be computed. -/
def literalValueOf : Node α → Step α (Option α)
  | .negate c => do
    let m ← nodeAt c
    return m.literal?.map Scalar.neg
  | .binary op b c => do
    let m ← nodeAt b
    let n ← nodeAt c
    match m.literal?, n.literal? with
    | some v, some w => return if Rewrite.divides op && Scalar.isZero w then none else some (op.apply v w)
    | _, _ => return none
  | _ => return none

/-- Folds a node whose operands are literals. -/
def foldAt (i : Id) : Step α Bool := do
  let n ← nodeAt i
  let value ← literalValueOf n
  match value.filter Scalar.isFinite with
  | some v => attempt (morph i v)
  | none => return false

/-- **Folds constants.** -/
def foldConstants : Step α Nat := visitAll foldAt

/-! ## Identities -/

/-- Whether a node is a literal equal to `v`. -/
def Node.isLiteral (n : Node α) (v : α) : Bool := n.literal?.any (Scalar.eq · v)

/-- The identity that holds of an operator and its operands, if there is one. -/
def reduct? : BinaryOp → Node α → Node α → Option Rewrite.Reduct
  | .add, m, n => if m.isLiteral Scalar.zero then some .right else if n.isLiteral Scalar.zero then some .left else none
  | .sub, _, n => if n.isLiteral Scalar.zero then some .left else none
  | .mul, m, n => if m.isLiteral Scalar.one then some .right else if n.isLiteral Scalar.one then some .left else none
  | .div, _, n => if n.isLiteral Scalar.one then some .left else none
  | .pow, m, n =>
    if n.isLiteral Scalar.one then some .left
    else if n.isLiteral Scalar.zero || m.isLiteral Scalar.one then some .one
    else none
  | _, _, _ => none

/-- Puts a node in the place of the parent of its parent. -/
def collapseTwice (i : Id) : Step α Unit := do
  collapse i
  collapse i

/-- Applies the identity that holds at a node. -/
def reduceAt (i : Id) : Step α Bool := do
  match ← nodeAt i with
  | .negate c =>
    match ← nodeAt c with
    | .negate inner => attempt (collapseTwice inner)
    | _ => return false
  | .binary op b c =>
    let m ← nodeAt b
    let n ← nodeAt c
    match reduct? op m n with
    | some .left => attempt (collapse b)
    | some .right => attempt (collapse c)
    | some .one => attempt (morph i Scalar.one)
    | none => return false
  | _ => return false

/-- **Applies identities.** -/
def eliminateIdentities : Step α Nat := visitAll reduceAt

/-! ## Chains -/

/-- The outer and the inner operator after a turn, the new inner operands, and the operand that is left. -/
def turned {β : Type} (t : Rewrite.Turn) (a b c : β) : BinaryOp × BinaryOp × β × β × β :=
  match t with
  | .associate o i => (o, i, a, b, c)
  | .cross o i => (o, i, a, c, b)
  | .exchange o i => (o, i, b, c, a)
  | .reverse o i => (o, i, c, b, a)

/-- One turn at a node, if its right operand goes on with the chain. -/
def rotate (i : Id) : Step α Bool := do
  match ← nodeAt i with
  | .binary outer a r =>
    match ← nodeAt r with
    | .binary inner b c =>
      let m ← nodeAt a
      match Rewrite.turn? outer inner (m.op?.any (BinaryOp.sameFamily · outer)) with
      | some t =>
        let (o, p, x, y, z) := turned t a b c
        rewire r (.binary p x y)
        rewire i (.binary o r z)
        return true
      | none => return false
    | _ => return false
  | _ => return false

/-- Turns at a node until there is none; answers the number of turns so far. -/
def rotateAll (i : Id) : Nat → Nat → Step α Nat
  | 0, _ => look fun _ => .error .endless
  | fuel + 1, n => do
    let rotated ← rotate i
    if rotated then rotateAll i fuel (n + 1) else return n

/-- The turns at nodes, one node after the other. -/
def rotateEach : List Id → Nat → Step α Nat
  | [], n => pure n
  | i :: rest, n => do
    let fuel ← look fun a => .ok a.limit
    let n ← rotateAll i fuel n
    rotateEach rest n

/-- One sweep of turns, operators before operands. -/
def sweep : Step α Nat := do
  let order ← look fun a => a.preorderFrom a.root
  rotateEach order 0

/-- Sweeps until a sweep makes no turn; answers the total number of turns. -/
def sweepUntil : Nat → Nat → Step α Nat
  | 0, total => pure total
  | fuel + 1, total => do
    match ← sweep with
    | 0 => return total
    | n + 1 => sweepUntil fuel (total + (n + 1))

/-- **Makes chains lean to the left.** -/
def normalizeChains : Step α Nat := sweepUntil Rewrite.maxSweeps 0

/-! ## Like terms -/

/-- Reads off the tree below a node. -/
def termLoop (a : Arena α) : Nat → Id → Except Panic (Term α)
  | 0, _ => .error .endless
  | fuel + 1, i =>
    match a.node? i with
    | none => .error (.stale i)
    | some (.literal v) => .ok (.literal () v)
    | some (.var name) => .ok (.var () name)
    | some .infinity => .ok (.infinity ())
    | some (.negate c) => do
      let t ← a.termLoop fuel c
      return .negate () t
    | some (.binary op b c) => do
      let t ← a.termLoop fuel b
      let u ← a.termLoop fuel c
      return .binary () op t u
    | some (.list items) => do
      let ts ← items.mapM (a.termLoop fuel)
      return .list () ts

/-- The tree below a node. -/
def termFrom (a : Arena α) (i : Id) : Except Panic (Term α) := a.termLoop a.limit i

mutual

/-- Makes the nodes of a tree, operands before operators; answers the root. -/
def plant : Term α → Step α Id
  | .literal _ v => alloc (.literal v)
  | .var _ name => alloc (.var name)
  | .infinity _ => alloc .infinity
  | .negate _ t => do
    let i ← plant t
    alloc (.negate i)
  | .binary _ op t u => do
    let i ← plant t
    let j ← plant u
    alloc (.binary op i j)
  | .list _ ts => do
    let is ← plantAll ts
    alloc (.list is)

/-- Makes the nodes of several trees. -/
def plantAll : List (Term α) → Step α (List Id)
  | [] => pure []
  | t :: ts => do
    let i ← plant t
    let is ← plantAll ts
    return i :: is

end

/-- Collects the terms of the sum at a node; nothing happens if they are collected already. -/
def collectSumAt (i : Id) : Step α Bool := do
  let t ← look fun a => a.termFrom i
  let sum ← look fun _ => build (plant (Rewrite.collectSum t))
  let same ← look fun a => a.sameAt i sum sum.root
  if same then return false else attempt (replace i sum)

/-- Collects the terms at a node that is a sum and no operand of one. -/
def collectAt (i : Id) : Step α Bool := do
  let n ← look fun a => .ok (a.node? i)
  if (n.map Node.isAdditive).getD false then
    let p ← look fun a => .ok (a.parent? i)
    match p with
    | some p =>
      let m ← nodeAt p
      if m.isAdditive then return false else collectSumAt i
    | none => collectSumAt i
  else return false

/-- **Collects like terms.** -/
def collectTerms : Step α Nat := visitAll collectAt

/-! ## Quotients and differences -/

/-- Makes a factor of a divisor. -/
def invert (s : Id) : Step α Id := do
  match ← nodeAt s with
  | .binary .pow base exponent =>
    match ← nodeAt exponent with
    | .literal c =>
      rewire exponent (.literal (Scalar.neg c))
      rewire s (.binary .pow base exponent)
      return s
    | _ =>
      let negated ← alloc (.negate exponent)
      rewire s (.binary .pow base negated)
      return s
  | _ =>
    let minusOne ← alloc (.literal Scalar.minusOne)
    alloc (.binary .pow s minusOne)

/-- The first literal factor of a product, and its value. -/
def coefficientOf : Node α → Step α (Option (Id × α))
  | .binary .mul x y => do
    let m ← nodeAt x
    match m.literal? with
    | some v => return some (x, v)
    | none =>
      let n ← nodeAt y
      return n.literal?.map fun w => (y, w)
  | _ => return none

/-- Makes a summand of a subtrahend. -/
def negated (s : Id) : Step α Id := do
  let n ← nodeAt s
  match ← coefficientOf n with
  | some (k, v) =>
    rewire k (.literal (Scalar.neg v))
    return s
  | none =>
    let minusOne ← alloc (.literal Scalar.minusOne)
    alloc (.binary .mul s minusOne)

/-- Rewrites a quotient or a difference. -/
def flattenAt (i : Id) : Step α Bool := do
  match ← nodeAt i with
  | .binary .div a s =>
    let inverse ← invert s
    rewire i (.binary .mul a inverse)
    return true
  | .binary .sub a s =>
    let opposite ← negated s
    rewire i (.binary .add a opposite)
    return true
  | _ => return false

/-- **Makes products of quotients and sums of differences.** -/
def eliminateQuotients : Step α Nat := visitAll flattenAt

end SignalFlow.Arena
