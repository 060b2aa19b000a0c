import SignalFlow.Proofs.Rewrite.Rounds

/-!
# What a pass does, change by change

A relation between a tree, a number of changes and the changed tree is `Graded` if it holds of no changes, of changes
one after the other, and of changes at the operands of a node. What holds of each single change by a rule then holds of
a whole pass (`graded_rewriteUp`). Sizes and numbers of operators, the variables of a tree and its value are such
relations; the latter two do not look at the number.

A rule is `Still` at a root if it changes nothing there. If what it makes of a root is still everywhere whenever the
operands are (`Rule.Finishes`), one pass leaves a tree at which it is still everywhere, and a second one counts nothing
(`Pass.finishes`).
-/

namespace SignalFlow

open SignalFlow.Tree

variable {ι α : Type}

/-! ## Graded relations -/

namespace Tree

/-- **Changes of several trees**, counted together. -/
inductive Each (R : Nat → Term α → Term α → Prop) : Nat → List (Term α) → List (Term α) → Prop where
  | nil : Each R 0 [] []
  | cons {m n : Nat} {t u : Term α} {ts us : List (Term α)} :
      R m t u → Each R n ts us → Each R (m + n) (t :: ts) (u :: us)

/-- **A relation between a tree and what a number of changes at its nodes make of it.** -/
structure Graded (R : Nat → Term α → Term α → Prop) : Prop where
  refl (t : Term α) : R 0 t t
  trans {m n : Nat} {t u w : Term α} : R m t u → R n u w → R (m + n) t w
  negate {n : Nat} {t u : Term α} : R n t u → R n (.negate () t) (.negate () u)
  binary {m n : Nat} {a a' b b' : Term α} (op : BinaryOp) :
    R m a a' → R n b b' → R (m + n) (.binary () op a b) (.binary () op a' b')
  list {n : Nat} {ts us : List (Term α)} : Each R n ts us → R n (.list () ts) (.list () us)

/-- Changes that are not counted relate the trees one by one. -/
theorem Each.forall₂ {R : Term α → Term α → Prop} {n : Nat} {ts us : List (Term α)} (h : Each (fun _ => R) n ts us) :
    List.Forall₂ R ts us := by
  induction h with
  | nil => exact .nil
  | cons ht _ ih => exact .cons ht ih

end Tree

namespace Rewrite

/-- **A relation holds of each single change by a rule.** -/
def Rule.Makes (r : Rule α) (R : Nat → Term α → Term α → Prop) : Prop := ∀ b t u, r b t = some u → R 1 t u

section Graded

variable {r : Rule α} {R : Nat → Term α → Term α → Prop}

theorem Rule.Makes.count (hr : r.Makes R) (hR : Graded R) (b : Bool) (t : Term α) :
    R (r.count b t).2 t (r.count b t).1 := by
  rw [Rule.count]
  cases h : r b t with
  | none => exact hR.refl t
  | some u => exact hr b t u h

mutual

/-- **What holds of each change holds of the pass.** -/
theorem graded_rewriteUp (hR : Graded R) (hr : r.Makes R) (b : Bool) (t : Term α) :
    R (rewriteUp r b t).2 t (rewriteUp r b t).1 := by
  match t with
  | .literal _ _ | .var _ _ | .infinity _ => exact hr.count hR b _
  | .negate _ t => exact hR.trans (hR.negate (graded_rewriteUp hR hr false t)) (hr.count hR b _)
  | .binary _ op x y =>
    have hx := graded_rewriteUp hR hr op.isAdditive x
    have hy := graded_rewriteUp hR hr op.isAdditive y
    exact hR.trans (hR.binary op hx hy) (hr.count hR b _)
  | .list _ items => exact hR.trans (hR.list (graded_rewriteUpAll hR hr items)) (hr.count hR b _)

theorem graded_rewriteUpAll (hR : Graded R) (hr : r.Makes R) (ts : List (Term α)) :
    Each R (rewriteUpAll r ts).2 ts (rewriteUpAll r ts).1 := by
  match ts with
  | [] => exact .nil
  | t :: ts => exact .cons (graded_rewriteUp hR hr false t) (graded_rewriteUpAll hR hr ts)

end

end Graded

/-! ## Rules that finish -/

/-- **A rule changes nothing at a root.** -/
def Rule.Still (r : Rule α) (t : Term α) : Prop := ∀ b, r b t = none

/-- **A rule has nothing left to do after one pass.** -/
structure Rule.Finishes (r : Rule α) : Prop where
  /-- What is above a root does not matter. -/
  still {b : Bool} {t : Term α} : r b t = none → r.Still t
  result {b : Bool} {t u : Term α} :
    (∀ c ∈ t.children, c.Everywhere r.Still) → r b t = some u → u.Everywhere r.Still

section Finishes

variable {r : Rule α}

theorem Rule.Finishes.count (hr : r.Finishes) (b : Bool) {t : Term α} (ht : ∀ c ∈ t.children, c.Everywhere r.Still) :
    (r.count b t).1.Everywhere r.Still := by
  rw [Rule.count]
  cases h : r b t with
  | none => exact everywhere_iff.mpr ⟨hr.still h, ht⟩
  | some u => exact hr.result ht h

mutual

/-- **After a pass the rule is still everywhere.** -/
theorem still_rewriteUp (hr : r.Finishes) (b : Bool) (t : Term α) : (rewriteUp r b t).1.Everywhere r.Still := by
  match t with
  | .literal _ _ | .var _ _ | .infinity _ => exact hr.count b (List.forall_mem_nil _)
  | .negate _ t => exact hr.count b (List.forall_mem_singleton.mpr (still_rewriteUp hr false t))
  | .binary _ op x y =>
    have hx := still_rewriteUp hr op.isAdditive x
    have hy := still_rewriteUp hr op.isAdditive y
    exact hr.count b (List.forall_mem_cons.mpr ⟨hx, List.forall_mem_singleton.mpr hy⟩)
  | .list _ items => exact hr.count b (still_rewriteUpAll hr items)

theorem still_rewriteUpAll (hr : r.Finishes) (ts : List (Term α)) :
    ∀ t ∈ (rewriteUpAll r ts).1, t.Everywhere r.Still := by
  match ts with
  | [] => exact List.forall_mem_nil _
  | t :: ts => exact List.forall_mem_cons.mpr ⟨still_rewriteUp hr false t, still_rewriteUpAll hr ts⟩

end

theorem Rule.Still.count {t : Term α} (ht : r.Still t) (b : Bool) : r.count b t = (t, 0) := by
  rw [Rule.count, ht b]

mutual

/-- **Where a rule is still everywhere, a pass counts nothing.** -/
theorem rewriteUp_still {t : Term α} (ht : t.Everywhere r.Still) (b : Bool) : rewriteUp r b t = (t, 0) := by
  match t with
  | .literal _ _ | .var _ _ | .infinity _ => exact (everywhere_iff.mp ht).1.count b
  | .negate _ t =>
    obtain ⟨hroot, ht⟩ := everywhere_negate.mp ht
    rw [rewriteUp, rewriteUp_still ht]
    dsimp only
    rw [hroot.count b]
    rfl
  | .binary _ op x y =>
    obtain ⟨hroot, hx, hy⟩ := everywhere_binary.mp ht
    rw [rewriteUp, rewriteUp_still hx, rewriteUp_still hy]
    dsimp only
    rw [hroot.count b]
    rfl
  | .list _ items =>
    obtain ⟨hroot, hitems⟩ := everywhere_list.mp ht
    rw [rewriteUp, rewriteUpAll_still hitems]
    dsimp only
    rw [hroot.count b]
    rfl

theorem rewriteUpAll_still {ts : List (Term α)} (hts : ∀ t ∈ ts, t.Everywhere r.Still) :
    rewriteUpAll r ts = (ts, 0) := by
  match ts with
  | [] => rfl
  | t :: ts =>
    obtain ⟨ht, hts⟩ := List.forall_mem_cons.mp hts
    rw [rewriteUpAll, rewriteUp_still ht, rewriteUpAll_still hts]

end

end Finishes

end Rewrite

/-! ## Passes -/

namespace Tree

theorem children_term (t : Tree ι α) : t.term.children = t.children.map term := by
  cases t with
  | list l items => rw [term_list]; rfl
  | _ => rfl

theorem preorder_term (t : Tree ι α) : t.term.preorder = t.preorder.map term := by
  induction t using childInduction with
  | h t ih =>
    rw [preorder_eq, preorder_eq t, children_term, List.map_cons, List.map_flatMap, List.flatMap_map]
    exact congrArg (t.term :: ·) (List.flatMap_congr ih)

/-- What holds at every node of the bare tree. -/
theorem everywhere_term {p : Term α → Prop} {t : Tree ι α} : t.term.Everywhere p ↔ t.Everywhere fun u => p u.term := by
  rw [Everywhere, preorder_term, List.forall_mem_map]
  rfl

theorem size_term (t : Tree ι α) : t.term.size = t.size := by
  induction t using childInduction with
  | h t ih =>
    have hsizes : t.children.map (size ∘ term) = t.children.map size := List.map_congr_left ih
    rw [size_eq, size_eq t, children_term, List.map_map, hsizes]

/-- The names of the variables of a tree, from left to right and as often as they occur. -/
def names (t : Tree ι α) : List String := t.preorder.filterMap name?

theorem names_eq (t : Tree ι α) : t.names = t.name?.toList ++ t.children.flatMap names := by
  rw [names, preorder_eq, List.filterMap_cons, List.filterMap_flatMap]
  cases t.name? <;> rfl

theorem names_negate (l : ι) (t : Tree ι α) : (Tree.negate l t).names = t.names := by
  rw [names_eq, children, List.flatMap_singleton]
  rfl

theorem names_binary (l : ι) (op : BinaryOp) (a b : Tree ι α) :
    (Tree.binary l op a b).names = a.names ++ b.names := by
  rw [names_eq, children, List.flatMap_cons, List.flatMap_singleton]
  rfl

theorem names_list (l : ι) (items : List (Tree ι α)) : (Tree.list l items).names = items.flatMap names :=
  names_eq _

theorem names_term (t : Tree ι α) : t.term.names = t.names := by
  have hname : ∀ u : Tree ι α, name? u.term = name? u := fun u => by cases u <;> rfl
  rw [names, preorder_term, List.filterMap_map, names]
  exact List.filterMap_congr fun u _ => hname u

/-- A tree has no more variables than another. -/
theorem graded_names : Graded fun _ (t u : Term α) => u.names.Sublist t.names where
  refl _ := List.Sublist.refl _
  trans htu huw := huw.trans htu
  negate h := by rwa [names_negate, names_negate]
  binary op ha hb := by
    rw [names_binary, names_binary]
    exact ha.append hb
  list h := by
    rw [names_list, names_list]
    induction h with
    | nil => exact List.Sublist.refl _
    | cons ht _ ih => exact ht.append ih

/-- A tree is smaller than another by as much as is removed at least in each change. -/
theorem graded_size (k : Nat) : Graded fun n (t u : Term α) => u.size + k * n ≤ t.size where
  refl _ := Nat.le_refl _
  trans htu huw := by
    rw [Nat.mul_add]
    omega
  negate h := by
    simp only [size]
    omega
  binary op ha hb := by
    simp only [size, Nat.mul_add]
    omega
  list h := by
    simp only [size]
    have hall : ∀ {n : Nat} {ts us : List (Term α)},
        Each (fun n (t u : Term α) => u.size + k * n ≤ t.size) n ts us → sizeAll us + k * n ≤ sizeAll ts := by
      intro n ts us h
      induction h with
      | nil => exact Nat.le_refl _
      | cons ht _ ih =>
        simp only [sizeAll, Nat.mul_add]
        omega
    have hitems := hall h
    omega

end Tree

section Passes

open Rewrite

variable [Scalar α] {p : Pass} {r : Rule α} {e : Expr α}

/-- **What holds of each change by the rule of a pass holds of the pass**, on bare trees. -/
theorem Pass.graded {R : Nat → Term α → Term α → Prop} (hp : ∀ t, p.onTerm t = rewriteUp r false t) (hR : Graded R)
    (hr : r.Makes R) (e : Expr α) : R (p.rewrite e).2 e.tree.term (p.rewrite e).1.tree.term := by
  obtain ⟨hterm, hcount⟩ := p.rewrite_term e
  rw [hterm, hcount, hp]
  exact graded_rewriteUp hR hr false e.tree.term

/-- **One pass by a rule that finishes is enough**: afterwards the rule is still at every node, and the pass counts
nothing and changes nothing. -/
theorem Pass.finishes (hp : ∀ t, p.onTerm t = rewriteUp r false t) (hr : r.Finishes) (e : Expr α) :
    (p.rewrite e).1.tree.Everywhere (fun u => r.Still u.term) ∧
      p.rewrite (p.rewrite e).1 = ((p.rewrite e).1, 0) := by
  have hstill : (p.rewrite e).1.tree.term.Everywhere r.Still := by
    rw [(p.rewrite_term e).1, hp]
    exact still_rewriteUp hr false e.tree.term
  refine ⟨everywhere_term.mp hstill, Pass.rewrite_unchanged ?_⟩
  rw [(p.rewrite_term _).2, hp, rewriteUp_still hstill]

end Passes

end SignalFlow
