import SignalFlow.Proofs.Arena.Run
import SignalFlow.Proofs.Expr.Regular

/-!
# Passes on bare trees

A pass does not look at the handles of a tree or at the free slots: what it makes of the tree and how many changes it
counts is said by a pass on the bare tree. For the bottom-up passes it is `rewriteUp` of a `Rule`, which says what a
change at the root makes of a bare tree (`bottomUp_bare`); a sweep of turns is one of all trees, bare ones included
(`sweeps_term`). `Pass.onTerm` is the pass on a bare tree, and `Pass.rewrite_term` says that each pass on an expression
is this pass on its bare tree.
-/

namespace SignalFlow

open SignalFlow.Tree

variable {ι κ α : Type}

/-! ## Bare trees -/

namespace Tree

theorem term_binary (l : ι) (op : BinaryOp) (a b : Tree ι α) :
    (Tree.binary l op a b).term = .binary () op a.term b.term := rfl

theorem term_list (l : ι) (items : List (Tree ι α)) : (Tree.list l items).term = .list () (items.map term) := by
  rw [term, relabel, relabelAll_eq]
  rfl

@[simp] theorem literal?_term (t : Tree ι α) : t.term.literal? = t.literal? := by
  cases t <;> rfl

@[simp] theorem op?_term (t : Tree ι α) : t.term.op? = t.op? := by
  cases t <;> rfl

@[simp] theorem isAdditive_term (t : Tree ι α) : t.term.isAdditive = t.isAdditive := by
  rw [isAdditive, op?_term, isAdditive]

@[simp] theorem isLiteral_term [Scalar α] (t : Tree ι α) (v : α) : t.term.isLiteral v = t.isLiteral v := by
  rw [isLiteral, literal?_term, isLiteral]

mutual

theorem same_term [Scalar α] (t : Tree ι α) (u : Tree κ α) : t.term.same u = t.same u := by
  match t with
  | .literal _ _ | .var _ _ | .infinity _ => cases u <;> rfl
  | .negate _ t =>
    cases u with
    | negate _ u => exact same_term t u
    | _ => rfl
  | .binary _ op a b =>
    cases u with
    | binary _ op' x y => rw [term_binary, same, same, same_term a x, same_term b y]
    | _ => rfl
  | .list _ items =>
    cases u with
    | list _ us => rw [term_list, same, same, sameAll_terms items us]
    | _ => rfl

theorem sameAll_terms [Scalar α] (ts : List (Tree ι α)) (us : List (Tree κ α)) :
    sameAll (ts.map term) us = sameAll ts us := by
  match ts with
  | [] => cases us <;> rfl
  | t :: ts =>
    cases us with
    | nil => rfl
    | cons u us => rw [List.map_cons, sameAll, sameAll, same_term t u, sameAll_terms ts us]

end

end Tree

namespace Rewrite

/-! ## Bottom-up passes -/

/-- **A change at the root of a bare tree**, which may be that of an operand of a sum; none if nothing is to change. -/
abbrev Rule (α : Type) := (inSum : Bool) → Term α → Option (Term α)

/-- A rule, counted if it changes something. -/
def Rule.count (r : Rule α) (inSum : Bool) (t : Term α) : Term α × Nat :=
  match r inSum t with
  | some u => (u, 1)
  | none => (t, 0)

mutual

/-- **A rule at the nodes of a bare tree**, children before parents, and how many it changed. -/
def rewriteUp (r : Rule α) (inSum : Bool) : Term α → Term α × Nat
  | .literal _ v => r.count inSum (.literal () v)
  | .var _ name => r.count inSum (.var () name)
  | .infinity _ => r.count inSum (.infinity ())
  | .negate _ t =>
    let (t, m) := rewriteUp r false t
    let (u, n) := r.count inSum (.negate () t)
    (u, m + n)
  | .binary _ op a b =>
    let (a, k) := rewriteUp r op.isAdditive a
    let (b, m) := rewriteUp r op.isAdditive b
    let (u, n) := r.count inSum (.binary () op a b)
    (u, k + m + n)
  | .list _ items =>
    let (items, m) := rewriteUpAll r items
    let (u, n) := r.count inSum (.list () items)
    (u, m + n)

/-- A rule at the nodes of several bare trees. -/
def rewriteUpAll (r : Rule α) : List (Term α) → List (Term α) × Nat
  | [] => ([], 0)
  | t :: ts =>
    let (t, m) := rewriteUp r false t
    let (ts, n) := rewriteUpAll r ts
    (t :: ts, m + n)

end

/-- **A change goes by a rule**: on the bare tree it does what the rule does. -/
def Change.GoesBy (f : Change α) (r : Rule α) : Prop :=
  ∀ b t s, (f b t s).map (fun p => p.1.term) = r b t.term

variable {f : Change α} {r : Rule α}

/-- At a root whose operands have been rewritten, with `m` changes that are counted already. -/
theorem Change.GoesBy.count (h : f.GoesBy r) (b : Bool) {t : Tree Id α} {u : Term α} (ht : t.term = u) (s : Slots)
    {k m n : Nat} (hn : n = k + m) :
    (f.count b t s n).1.term = (r.count b u).1 ∧ (f.count b t s n).2.2 = k + (m + (r.count b u).2) := by
  have hrule := h b t s
  rw [ht] at hrule
  rw [Change.count, Rule.count, ← hrule, hn]
  cases f b t s with
  | none => exact ⟨ht, rfl⟩
  | some p => exact ⟨rfl, Nat.add_assoc ..⟩

theorem Change.GoesBy.count_leaf (h : f.GoesBy r) (b : Bool) (t : Tree Id α) (s : Slots) (n : Nat) :
    (f.count b t s n).1.term = (r.count b t.term).1 ∧ (f.count b t s n).2.2 = n + (r.count b t.term).2 := by
  have hroot := h.count b (t := t) rfl s (Nat.add_zero n).symm
  rwa [Nat.zero_add] at hroot

mutual

/-- **A bottom-up pass is the rule at the nodes of the bare tree.** -/
theorem bottomUp_bare (h : f.GoesBy r) (b : Bool) (t : Tree Id α) (s : Slots) (n : Nat) :
    (bottomUp f b t s n).1.term = (rewriteUp r b t.term).1 ∧
      (bottomUp f b t s n).2.2 = n + (rewriteUp r b t.term).2 := by
  match t with
  | .literal l v => exact h.count_leaf b (.literal l v) s n
  | .var l name => exact h.count_leaf b (.var l name) s n
  | .infinity l => exact h.count_leaf b (.infinity l) s n
  | .negate l t =>
    have ih := bottomUp_bare h false t s n
    exact h.count b (t := .negate l _) (congrArg (Tree.negate ()) ih.1) _ ih.2
  | .binary l op x y =>
    have ihx := bottomUp_bare h op.isAdditive x s n
    have ihy := bottomUp_bare h op.isAdditive y (bottomUp f op.isAdditive x s n).2.1
      (bottomUp f op.isAdditive x s n).2.2
    refine h.count b (t := .binary l op _ _) (congrArg₂ (Tree.binary () op) ihx.1 ihy.1) _ ?_
    rw [ihy.2, ihx.2, Nat.add_assoc]
    rfl
  | .list l items =>
    have ih := bottomUpAll_bare h items s n
    rw [term_list]
    refine h.count b ?_ _ ih.2
    rw [term_list, ih.1]

theorem bottomUpAll_bare (h : f.GoesBy r) (ts : List (Tree Id α)) (s : Slots) (n : Nat) :
    (bottomUpAll f ts s n).1.map term = (rewriteUpAll r (ts.map term)).1 ∧
      (bottomUpAll f ts s n).2.2 = n + (rewriteUpAll r (ts.map term)).2 := by
  match ts with
  | [] => exact ⟨rfl, rfl⟩
  | t :: ts =>
    have iht := bottomUp_bare h false t s n
    have ihts := bottomUpAll_bare h ts (bottomUp f false t s n).2.1 (bottomUp f false t s n).2.2
    refine ⟨congrArg₂ List.cons iht.1 ihts.1, ihts.2.trans ?_⟩
    rw [iht.2, Nat.add_assoc]
    rfl

end

/-! ## The rules -/

section Rules

variable [Scalar α]

/-- Folding the root. -/
def foldRule : Rule α := fun _ t => ((literalValue? t).filter Scalar.isFinite).map (.literal ())

/-- Applying the identity that holds at the root. -/
def reduceRule : Rule α := fun _ t =>
  match t with
  | .negate _ (.negate _ u) => some u
  | .binary _ op a b =>
    match reduct? op a b with
    | some .left => some a
    | some .right => some b
    | some .one => some (.literal () Scalar.one)
    | none => none
  | _ => none

/-- Collecting the terms of a sum that is no operand of one. -/
def collectRule : Rule α := fun inSum t =>
  if t.isAdditive && !inSum && !t.same (collectSum t) then some (collectSum t) else none

/-- A divisor as a factor. -/
def inverseTerm : Term α → Term α
  | .binary _ .pow base (.literal _ c) => .binary () .pow base (.literal () (Scalar.neg c))
  | .binary _ .pow base exponent => .binary () .pow base (.negate () exponent)
  | t => .binary () .pow t (.literal () Scalar.minusOne)

/-- A subtrahend as a summand. -/
def oppositeTerm : Term α → Term α
  | .binary _ .mul (.literal _ v) b => .binary () .mul (.literal () (Scalar.neg v)) b
  | .binary _ .mul a (.literal _ v) => .binary () .mul a (.literal () (Scalar.neg v))
  | t => .binary () .mul t (.literal () Scalar.minusOne)

/-- Rewriting a quotient or a difference. -/
def flattenRule : Rule α := fun _ t =>
  match t with
  | .binary _ .div a b => some (.binary () .mul a (inverseTerm b))
  | .binary _ .sub a b => some (.binary () .add a (oppositeTerm b))
  | _ => none

theorem literalValue?_term (t : Tree ι α) : literalValue? t.term = literalValue? t := by
  cases t with
  | negate l t => cases t <;> rfl
  | binary l op a b => cases a <;> cases b <;> rfl
  | _ => rfl

theorem fold_goesBy : (foldChange : Change α).GoesBy foldRule := by
  intro b t s
  rw [foldChange, foldRule, literalValue?_term, Option.map_map]
  rfl

theorem reduct?_term (op : BinaryOp) (a b : Tree ι α) : reduct? op a.term b.term = reduct? op a b := by
  cases op <;> simp only [reduct?, isLiteral_term]

theorem reduce_goesBy : (reduceChange : Change α).GoesBy reduceRule := by
  intro inSum t s
  cases t with
  | negate l t => cases t <;> rfl
  | binary l op a b =>
    rw [term_binary, reduceChange, reduceRule, reduct?_term]
    cases reduct? op a b with
    | none => rfl
    | some r => cases r <;> rfl
  | _ => rfl

theorem collect_goesBy : (collectChange : Change α).GoesBy collectRule := by
  intro inSum t s
  rw [collectChange, collectRule, isAdditive_term, same_term]
  split
  · rw [Option.map_some, term_place, term_eq_self]
  · rfl

theorem term_inverse (t : Tree Id α) (s : Slots) : (inverse t s).1.term = inverseTerm t.term := by
  cases t with
  | binary l op a b =>
    cases op with
    | pow => cases b <;> rfl
    | _ => rfl
  | _ => rfl

theorem term_opposite (t : Tree Id α) (s : Slots) : (opposite t s).1.term = oppositeTerm t.term := by
  cases t with
  | binary l op a b =>
    cases op with
    | mul => cases a <;> cases b <;> rfl
    | _ => rfl
  | _ => rfl

theorem flatten_goesBy : (flattenChange : Change α).GoesBy flattenRule := by
  intro inSum t s
  cases t with
  | binary l op a b =>
    cases op with
    | div => exact congrArg (fun b => some (Tree.binary () .mul a.term b)) (term_inverse b s)
    | sub => exact congrArg (fun b => some (Tree.binary () .add a.term b)) (term_opposite b s)
    | _ => rfl
  | _ => rfl

end Rules

/-! ## Turns -/

theorem inChain_term (op : BinaryOp) (t : Tree ι α) : inChain op t.term = inChain op t := by
  rw [inChain, op?_term, inChain]

/-- The turns at a bare node. -/
theorem turnAll_term (outer : BinaryOp) (a b : Tree ι α) :
    turnAll outer a.term b.term = ⟨(turnAll outer a b).op, (turnAll outer a b).left.term,
      (turnAll outer a b).right.term, (turnAll outer a b).turns⟩ := by
  fun_induction turnAll outer a b with
  | case1 outer a l inner b c o i h r ih =>
    rw [term_binary, turnAll, inChain_term, h]
    dsimp only
    rw [← term_binary l, ih]
  | case2 outer a l inner b c o i h r ih =>
    rw [term_binary, turnAll, inChain_term, h]
    dsimp only
    rw [← term_binary l, ih]
  | case3 outer a l inner b c o i h | case4 outer a l inner b c o i h =>
    rw [term_binary, turnAll, inChain_term, h]
    rfl
  | case5 outer a l inner b c h =>
    rw [term_binary, turnAll, inChain_term, h]
  | case10 outer a l items => rw [term_list, turnAll]
  | _ => rfl

theorem sweep_negate (l : ι) (t : Tree ι α) : sweep (.negate l t) = (.negate l (sweep t).1, (sweep t).2) := by
  rw [sweep]

/-- A sweep through an operator: the turns at it, then a sweep through each new operand. -/
theorem sweep_binary (l : ι) (op : BinaryOp) (a b : Tree ι α) : sweep (.binary l op a b) =
    (.binary l (turnAll op a b).op (sweep (turnAll op a b).left).1 (sweep (turnAll op a b).right).1,
      (turnAll op a b).turns + (sweep (turnAll op a b).left).2 + (sweep (turnAll op a b).right).2) := by
  rw [sweep]

theorem sweep_list (l : ι) (items : List (Tree ι α)) :
    sweep (.list l items) = (.list l (sweepAll items).1, (sweepAll items).2) := by
  rw [sweep]

theorem sweepAll_cons (t : Tree ι α) (ts : List (Tree ι α)) :
    sweepAll (t :: ts) = ((sweep t).1 :: (sweepAll ts).1, (sweep t).2 + (sweepAll ts).2) := by
  rw [sweepAll]

/-- **Sweeps of bare trees.** -/
theorem sweeps_term :
    (∀ t : Tree ι α, sweep t.term = ((sweep t).1.term, (sweep t).2)) ∧
      ∀ ts : List (Tree ι α), sweepAll (ts.map term) = ((sweepAll ts).1.map term, (sweepAll ts).2) := by
  apply sweep.mutual_induct
  case case1 | case2 | case3 =>
    intros
    rw [sweep]
    exact sweep.eq_def _
  case case4 =>
    intro l t u n _ ih
    rw [show (Tree.negate l t).term = .negate () t.term from rfl, sweep_negate, sweep_negate, ih]
    rfl
  case case5 =>
    intro l op a b r _ u m _ w n _ ihl ihr
    rw [term_binary, sweep_binary, sweep_binary, turnAll_term]
    dsimp only
    rw [ihl, ihr]
    rfl
  case case6 =>
    intro l items us n _ ih
    rw [term_list, sweep_list, sweep_list, ih, term_list]
  case case7 => simp only [List.map_nil, sweepAll]
  case case8 =>
    intro t ts u m _ us n _ iht ihts
    rw [List.map_cons, sweepAll_cons, sweepAll_cons, iht, ihts]
    rfl

theorem sweepUntil_term (fuel : Nat) (t : Tree ι α) (n : Nat) :
    sweepUntil fuel t.term n = ((sweepUntil fuel t n).1.term, (sweepUntil fuel t n).2) := by
  induction fuel generalizing t n with
  | zero => rfl
  | succ fuel ih =>
    rw [sweepUntil, sweepUntil, sweeps_term.1]
    obtain ⟨u, m⟩ := sweep t
    cases m with
    | zero => rfl
    | succ m => exact ih u _

end Rewrite

/-! ## Passes -/

section Passes

open Rewrite

variable [Scalar α]

/-- **A pass on a bare tree**: what it makes of the tree, and how many changes it counts. -/
def Pass.onTerm : Pass → Term α → Term α × Nat
  | .foldConstants, t => rewriteUp foldRule false t
  | .eliminateIdentities, t => rewriteUp reduceRule false t
  | .normalizeChains, t => sweepUntil maxSweeps t 0
  | .collectTerms, t => rewriteUp collectRule false t
  | .eliminateQuotients, t => rewriteUp flattenRule false t

/-- **A pass depends on the bare tree alone**, whatever the handles of the tree and the free slots are. -/
theorem Pass.rewrite_term (p : Pass) (e : Expr α) :
    (p.rewrite e).1.tree.term = (p.onTerm e.tree.term).1 ∧ (p.rewrite e).2 = (p.onTerm e.tree.term).2 := by
  cases p with
  | foldConstants =>
    have hbare := bottomUp_bare (α := α) fold_goesBy false e.tree e.slots 0
    rw [bottomUp_fold, Nat.zero_add] at hbare
    exact hbare
  | eliminateIdentities =>
    have hbare := bottomUp_bare (α := α) reduce_goesBy false e.tree e.slots 0
    rw [bottomUp_reduce, Nat.zero_add] at hbare
    exact hbare
  | normalizeChains =>
    have hsweeps := sweepUntil_term maxSweeps e.tree 0
    exact ⟨(congrArg Prod.fst hsweeps).symm, (congrArg Prod.snd hsweeps).symm⟩
  | collectTerms =>
    have hbare := bottomUp_bare (α := α) collect_goesBy false e.tree e.slots 0
    rw [bottomUp_collect, Nat.zero_add] at hbare
    exact hbare
  | eliminateQuotients =>
    have hbare := bottomUp_bare (α := α) flatten_goesBy false e.tree e.slots 0
    rw [bottomUp_flatten, Nat.zero_add] at hbare
    exact hbare

end Passes

end SignalFlow
