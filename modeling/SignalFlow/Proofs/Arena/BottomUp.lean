import SignalFlow.Proofs.Arena.Operations

/-!
# Bottom-up passes on the arena of an expression

Four passes visit the nodes of an expression children first and change each one by itself, knowing no more of what is
above it than whether it is an operand of a sum. Such a pass is `bottomUp` of a change at the root. If at every hole
visiting does on the arena what the change does to the tree in the hole (`Follows`), then visiting all nodes does what
the pass does (`visitAll_does`).
-/

namespace SignalFlow

open Arena SignalFlow.Tree

variable {α : Type}

/-! ## Passes -/

namespace Rewrite

/-- **A change at the root of a tree**, which may be that of an operand of a sum; none if nothing is to change. -/
abbrev Change (α : Type) := (inSum : Bool) → Tree Id α → Slots → Option (Tree Id α × Slots)

/-- A change, counted if it is one. -/
def Change.count (f : Change α) (inSum : Bool) (t : Tree Id α) (s : Slots) (n : Nat) : Tree Id α × Slots × Nat :=
  match f inSum t s with
  | some (t, s) => (t, s, n + 1)
  | none => (t, s, n)

mutual

/-- **The changes at the nodes of a tree**, children before parents. -/
def bottomUp (f : Change α) (inSum : Bool) : Tree Id α → Slots → Nat → Tree Id α × Slots × Nat
  | .literal l v, s, n => f.count inSum (.literal l v) s n
  | .var l name, s, n => f.count inSum (.var l name) s n
  | .infinity l, s, n => f.count inSum (.infinity l) s n
  | .negate l t, s, n =>
    let (t, s, n) := bottomUp f false t s n
    f.count inSum (.negate l t) s n
  | .binary l op a b, s, n =>
    let (a, s, n) := bottomUp f op.isAdditive a s n
    let (b, s, n) := bottomUp f op.isAdditive b s n
    f.count inSum (.binary l op a b) s n
  | .list l items, s, n =>
    let (items, s, n) := bottomUpAll f items s n
    f.count inSum (.list l items) s n

/-- The changes at the nodes of several trees. -/
def bottomUpAll (f : Change α) : List (Tree Id α) → Slots → Nat → List (Tree Id α) × Slots × Nat
  | [], s, n => ([], s, n)
  | t :: ts, s, n =>
    let (t, s, n) := bottomUp f false t s n
    let (ts, s, n) := bottomUpAll f ts s n
    (t :: ts, s, n)

end

end Rewrite

/-! ## Visiting -/

/-- Whether the operand of a frame is an operand of a sum. -/
def Frame.isAdditive : Frame Id α → Bool
  | .left _ op _ | .right _ op _ => op.isAdditive
  | .negate _ | .item _ _ _ => false

theorem Frame.isAdditive_node (f : Frame Id α) (k : Id) : (f.node k).isAdditive = f.isAdditive := by
  cases f <;> rfl

/-- Whether what fills a hole is an operand of a sum. -/
def Hole.inSum (h : Hole Id α) : Bool := h.frames.head?.any Frame.isAdditive

namespace Arena

open Rewrite

/-- **Visiting a node does what a change at the root does** to the tree that fills a hole. -/
def Follows (rewrite : Id → Step α Bool) (f : Change α) : Prop :=
  ∀ (h : Hole Id α) (t : Tree Id α) (s : Slots), match f h.inSum t s with
    | some (u, s') => Does (rewrite t.label) (h.layout s t) (.ok true) (h.layout s' u)
    | none => Does (rewrite t.label) (h.layout s t) (.ok false) (h.layout s t)

variable {rewrite : Id → Step α Bool} {f : Change α} {m : Layout α} {o : Except ExprError Nat}

theorem visit_cons (hf : Follows rewrite f) (h : Hole Id α) (t : Tree Id α) {s : Slots} {n : Nat} {rest : List Id}
    (hrest : Does (visit rewrite rest (f.count h.inSum t s n).2.2)
      (h.layout (f.count h.inSum t s n).2.1 (f.count h.inSum t s n).1) o m) :
    Does (visit rewrite (t.label :: rest) n) (h.layout s t) o m := by
  have hroot := hf h t s
  rw [Change.count] at hrest
  split at hroot
  · rename_i u s' heq
    rw [heq] at hrest
    exact hroot.bind hrest
  · rename_i heq
    rw [heq] at hrest
    exact hroot.bind hrest

mutual

/-- Visiting the nodes of a tree in a hole, children first. -/
theorem visit_tree (hf : Follows rewrite f) (h : Hole Id α) (t : Tree Id α) (rest : List Id) {s : Slots} {n : Nat}
    (hrest : Does (visit rewrite rest (bottomUp f h.inSum t s n).2.2)
      (h.layout (bottomUp f h.inSum t s n).2.1 (bottomUp f h.inSum t s n).1) o m) :
    Does (visit rewrite (t.postorder.map label ++ rest) n) (h.layout s t) o m := by
  match t with
  | .literal l v => exact visit_cons hf h (.literal l v) hrest
  | .var l name => exact visit_cons hf h (.var l name) hrest
  | .infinity l => exact visit_cons hf h (.infinity l) hrest
  | .negate l t =>
    have hpush : ∀ s t, (h.push (.negate l)).layout s t = h.layout s (.negate l t) := h.layout_push (.negate l)
    rw [postorder_eq, Tree.children, List.flatMap_singleton, List.map_append, List.append_assoc, ← hpush]
    refine visit_tree hf (h.push (.negate l)) t _ ?_
    rw [hpush]
    exact visit_cons hf h (.negate l _) hrest
  | .binary l op a b =>
    have hleft : ∀ s a, (h.push (.left l op b)).layout s a = h.layout s (.binary l op a b) :=
      h.layout_push (.left l op b)
    have hright : ∀ a s b, (h.push (.right l op a)).layout s b = h.layout s (.binary l op a b) := fun a =>
      h.layout_push (.right l op a)
    rw [postorder_eq, Tree.children, List.flatMap_cons, List.flatMap_singleton, List.map_append, List.map_append,
      List.append_assoc, List.append_assoc, ← hleft]
    refine visit_tree hf (h.push (.left l op b)) a _ ?_
    rw [hleft, ← hright]
    refine visit_tree hf (h.push (.right l op _)) b _ ?_
    rw [hright]
    exact visit_cons hf h (.binary l op _ _) hrest
  | .list l items =>
    rw [postorder_eq, Tree.children, List.map_append, List.append_assoc]
    refine visit_trees hf h l [] items ?_
    exact visit_cons hf h (.list l _) hrest

/-- Visiting the nodes of the items of a list, after those of the items before them. -/
theorem visit_trees (hf : Follows rewrite f) (h : Hole Id α) (l : Id) (before items : List (Tree Id α)) {s : Slots}
    {n : Nat} {rest : List Id}
    (hrest : Does (visit rewrite rest (bottomUpAll f items s n).2.2)
      (h.layout (bottomUpAll f items s n).2.1 (.list l (before ++ (bottomUpAll f items s n).1))) o m) :
    Does (visit rewrite ((items.flatMap postorder).map label ++ rest) n) (h.layout s (.list l (before ++ items)))
      o m := by
  match items with
  | [] => exact hrest
  | t :: ts =>
    have hpush : ∀ s t, (h.push (.item l before ts)).layout s t = h.layout s (.list l (before ++ t :: ts)) :=
      h.layout_push (.item l before ts)
    rw [List.flatMap_cons, List.map_append, List.append_assoc, ← hpush]
    refine visit_tree hf (h.push (.item l before ts)) t _ ?_
    have hsplit : ∀ u us, before ++ u :: us = before ++ [u] ++ us := fun u us => by simp
    rw [hpush, hsplit]
    refine visit_trees hf h l _ ts ?_
    rw [← hsplit]
    exact hrest

end

/-- **Visiting the nodes of an expression does what the pass does.** -/
theorem visitAll_does (hf : Follows rewrite f) (e : Expr α) {t : Tree Id α} {s : Slots} {n : Nat}
    (hpass : bottomUp f false e.tree e.slots 0 = (t, s, n)) :
    Does (visitAll rewrite) e.layout (.ok n) ({ e with tree := t, slots := s } : Expr α).layout := by
  let h : Hole Id α := ⟨[], [], e.detached⟩
  have hlayout : ∀ t s, ({ e with tree := t, slots := s } : Expr α).layout = h.layout s t := fun t s =>
    Expr.layout_of_fill (h := h) rfl
  refine (Does.look (b := e.tree.postorder.map label) fun a ha => ?_).bind ?_
  · rw [ha.root]
    exact postorderFrom_eq ha e.sits_tree
  · have hvisit := visit_tree (m := h.layout s t) (o := .ok n) hf h e.tree [] (s := e.slots) (n := 0)
    have hnone : bottomUp f h.inSum e.tree e.slots 0 = (t, s, n) := hpass
    have hstart : e.layout = h.layout e.slots e.tree := Expr.layout_of_fill rfl
    rw [hnone, List.append_nil] at hvisit
    rw [hstart, hlayout]
    exact hvisit (Does.pure n)

end Arena

end SignalFlow
