import SignalFlow.Proofs.Arena.BottomUp

/-!
# The bottom-up passes

Folding, applying identities, collecting like terms and rewriting quotients and differences are bottom-up passes, each
with its change at the root of a tree. Each does on the arena of an expression what it does on the expression
(`foldConstants_does` and its siblings).
-/

namespace SignalFlow

open Arena SignalFlow.Tree

variable {ι κ α : Type}

namespace Tree

theorem literal?_shape (t : Tree Id α) : t.shape.literal? = t.literal? := by
  cases t <;> rfl

theorem op?_shape (t : Tree Id α) : t.shape.op? = t.op? := by
  cases t <;> rfl

theorem isAdditive_shape (t : Tree Id α) : t.shape.isAdditive = t.isAdditive := by
  rw [Node.isAdditive, op?_shape, isAdditive]

end Tree

theorem Expr.layout_with (e : Expr α) (t : Tree Id α) (s : Slots) :
    ({ e with tree := t, slots := s } : Expr α).layout = Hole.layout ⟨[], [], e.detached⟩ s t :=
  Expr.layout_of_fill (h := ⟨[], [], e.detached⟩) rfl

variable [Scalar α]

/-! ## Folding -/

namespace Rewrite

/-- Folding the root of a tree. -/
def foldChange : Change α := fun _ t s =>
  ((literalValue? t).filter Scalar.isFinite).map fun v => (.literal t.label v, s.release (t.children.flatMap discard))

/-- What folding is bottom up, in terms of the free slots alone. -/
theorem count_foldChange (b : Bool) (t : Tree Id α) (s : Slots) (n : Nat) :
    foldChange.count b t s n = ((foldRoot t ⟨s.free, n⟩).1, { s with free := (foldRoot t ⟨s.free, n⟩).2.free },
      (foldRoot t ⟨s.free, n⟩).2.count) := by
  rw [Change.count, foldChange, foldRoot]
  cases (literalValue? t).filter Scalar.isFinite <;> rfl

mutual

theorem bottomUp_fold (b : Bool) (t : Tree Id α) (s : Slots) (n : Nat) :
    bottomUp foldChange b t s n =
      ((fold t ⟨s.free, n⟩).1, { s with free := (fold t ⟨s.free, n⟩).2.free }, (fold t ⟨s.free, n⟩).2.count) := by
  match t with
  | .literal l v | .var l name | .infinity l => rfl
  | .negate l t =>
    rw [bottomUp, bottomUp_fold]
    exact count_foldChange ..
  | .binary l op x y =>
    rw [bottomUp, bottomUp_fold]
    dsimp only
    rw [bottomUp_fold]
    exact count_foldChange ..
  | .list l items =>
    rw [bottomUp, bottomUpAll_fold]
    rfl

theorem bottomUpAll_fold (ts : List (Tree Id α)) (s : Slots) (n : Nat) :
    bottomUpAll foldChange ts s n = ((foldAll ts ⟨s.free, n⟩).1, { s with free := (foldAll ts ⟨s.free, n⟩).2.free },
      (foldAll ts ⟨s.free, n⟩).2.count) := by
  match ts with
  | [] => rfl
  | t :: ts =>
    rw [bottomUpAll, bottomUp_fold]
    dsimp only
    rw [bottomUpAll_fold]
    rfl

end

end Rewrite

namespace Arena

open Rewrite

variable {l : Layout α}

theorem literalValueOf_does {t : Tree Id α} (ht : l.Sits t) :
    Does (literalValueOf t.shape) l (.ok (literalValue? t)) l := by
  cases t with
  | negate i u =>
    refine (nodeAt_tree (ht.child (c := u) List.mem_cons_self)).bind ?_
    rw [literal?_shape]
    cases u <;> exact Does.pure _
  | binary i op a b =>
    refine (nodeAt_tree (ht.child (c := a) List.mem_cons_self)).bind ?_
    refine (nodeAt_tree (ht.child (c := b) (List.mem_cons_of_mem _ List.mem_cons_self))).bind ?_
    rw [literal?_shape, literal?_shape]
    cases a <;> cases b <;> exact Does.pure _
  | _ => exact Does.pure _

theorem follows_fold : Follows (α := α) foldAt foldChange := by
  intro h t s
  have hvalue := literalValueOf_does (h.sits s t)
  rw [foldChange]
  cases hv : (literalValue? t).filter Scalar.isFinite with
  | none =>
    refine (nodeAt_tree (h.sits s t)).bind (hvalue.bind ?_)
    rw [hv]
    exact Does.pure false
  | some v =>
    refine (nodeAt_tree (h.sits s t)).bind (hvalue.bind ?_)
    rw [hv]
    exact (morph_does h s t v).attempt

/-- **Folding constants.** -/
theorem foldConstants_does (e : Expr α) :
    Does Arena.foldConstants e.layout (.ok e.foldConstants.2) e.foldConstants.1.layout :=
  visitAll_does follows_fold e (bottomUp_fold ..)

end Arena

/-! ## Identities -/

namespace Rewrite

/-- Applying the identity that holds at the root of a tree. -/
def reduceChange : Change α := fun _ t s =>
  match t with
  | .negate l (.negate m u) => some (u, s.release [m, l])
  | .binary l op a b =>
    match reduct? op a b with
    | some .left => some (a, s.release (l :: b.discard))
    | some .right => some (b, s.release (l :: a.discard))
    | some .one => some (.literal l Scalar.one, s.release (a.discard ++ b.discard))
    | none => none
  | _ => none

theorem count_reduceChange (b : Bool) (t : Tree Id α) (s : Slots) (n : Nat) :
    reduceChange.count b t s n = ((reduceRoot t ⟨s.free, n⟩).1, { s with free := (reduceRoot t ⟨s.free, n⟩).2.free },
      (reduceRoot t ⟨s.free, n⟩).2.count) := by
  cases t with
  | negate l t => cases t <;> rfl
  | binary l op x y =>
    rw [Change.count, reduceChange, reduceRoot]
    cases reduct? op x y with
    | none => rfl
    | some r => cases r <;> rfl
  | _ => rfl

mutual

theorem bottomUp_reduce (b : Bool) (t : Tree Id α) (s : Slots) (n : Nat) :
    bottomUp reduceChange b t s n =
      ((reduce t ⟨s.free, n⟩).1, { s with free := (reduce t ⟨s.free, n⟩).2.free }, (reduce t ⟨s.free, n⟩).2.count) := by
  match t with
  | .literal l v | .var l name | .infinity l => rfl
  | .negate l t =>
    rw [bottomUp, bottomUp_reduce]
    exact count_reduceChange ..
  | .binary l op x y =>
    rw [bottomUp, bottomUp_reduce]
    dsimp only
    rw [bottomUp_reduce]
    exact count_reduceChange ..
  | .list l items =>
    rw [bottomUp, bottomUpAll_reduce]
    rfl

theorem bottomUpAll_reduce (ts : List (Tree Id α)) (s : Slots) (n : Nat) :
    bottomUpAll reduceChange ts s n = ((reduceAll ts ⟨s.free, n⟩).1,
      { s with free := (reduceAll ts ⟨s.free, n⟩).2.free }, (reduceAll ts ⟨s.free, n⟩).2.count) := by
  match ts with
  | [] => rfl
  | t :: ts =>
    rw [bottomUpAll, bottomUp_reduce]
    dsimp only
    rw [bottomUpAll_reduce]
    rfl

end

end Rewrite

namespace Arena

open Rewrite

theorem isLiteral_shape (t : Tree Id α) (v : α) : t.shape.isLiteral v = t.isLiteral v := by
  rw [Node.isLiteral, literal?_shape, Tree.isLiteral]

theorem reduct?_shape (op : BinaryOp) (a b : Tree Id α) : reduct? op a.shape b.shape = Rewrite.reduct? op a b := by
  cases op <;> simp only [reduct?, Rewrite.reduct?, isLiteral_shape]

/-- At an operator the two operands are looked at. -/
theorem reduceAt_binary {k m : Layout α} {l : Id} {op : BinaryOp} {a b : Tree Id α} (ht : k.Sits (.binary l op a b))
    {o : Except ExprError Bool} (hrest : Does (match Rewrite.reduct? op a b with
      | some .left => Step.attempt (collapse a.label)
      | some .right => Step.attempt (collapse b.label)
      | some .one => Step.attempt (morph l Scalar.one)
      | none => return false) k o m) : Does (reduceAt l) k o m := by
  refine (nodeAt_tree ht).bind ((nodeAt_tree (ht.child (c := a) List.mem_cons_self)).bind ?_)
  refine (nodeAt_tree (ht.child (c := b) (List.mem_cons_of_mem _ List.mem_cons_self))).bind ?_
  rw [reduct?_shape]
  exact hrest

theorem follows_reduce : Follows (α := α) reduceAt reduceChange := by
  intro h t s
  have hsits := h.sits s t
  cases t with
  | negate l t =>
    cases t with
    | negate m u =>
      have hinner := collapse_does (h.push (.negate l)) (.negate m) s u
      rw [h.layout_push, h.layout_push] at hinner
      have htwice : Does (collapseTwice u.label) (h.layout s (.negate l (.negate m u))) (.ok ())
          (h.layout (s.release [m, l]) u) := hinner.bind (collapse_does h (.negate l) _ u)
      exact (nodeAt_tree hsits).bind ((nodeAt_tree (hsits.child List.mem_cons_self)).bind htwice.attempt)
    | _ => exact (nodeAt_tree hsits).bind ((nodeAt_tree (hsits.child List.mem_cons_self)).bind (Does.pure false))
  | binary l op a b =>
    rw [reduceChange]
    cases hr : Rewrite.reduct? op a b with
    | none =>
      refine reduceAt_binary hsits ?_
      rw [hr]
      exact Does.pure false
    | some r =>
      cases r with
      | left =>
        have hleft := collapse_does h (.left l op b) s a
        rw [show (Frame.left l op b).siblings.reverse.flatMap Tree.discard = b.discard from List.append_nil _] at hleft
        refine reduceAt_binary hsits ?_
        rw [hr]
        exact hleft.attempt
      | right =>
        have hright := collapse_does h (.right l op a) s b
        rw [show (Frame.right l op a).siblings.reverse.flatMap Tree.discard = a.discard from List.append_nil _]
          at hright
        refine reduceAt_binary hsits ?_
        rw [hr]
        exact hright.attempt
      | one =>
        have hone := morph_does h s (.binary l op a b) Scalar.one
        rw [Tree.children, List.flatMap_cons, List.flatMap_singleton] at hone
        refine reduceAt_binary hsits ?_
        rw [hr]
        exact hone.attempt
  | _ => exact (nodeAt_tree hsits).bind (Does.pure false)

/-- **Applying identities.** -/
theorem eliminateIdentities_does (e : Expr α) :
    Does Arena.eliminateIdentities e.layout (.ok e.eliminateIdentities.2) e.eliminateIdentities.1.layout :=
  visitAll_does follows_reduce e (bottomUp_reduce ..)

end Arena

/-! ## Like terms -/

namespace Tree

mutual

/-- Comparing does not look at labels. -/
theorem same_place (t : Tree κ α) (u : Tree ι α) (s : Slots) : t.same (u.place s).1 = t.same u := by
  match u with
  | .literal _ _ | .var _ _ | .infinity _ => cases t <;> rfl
  | .negate _ u =>
    cases t with
    | negate _ t => simp only [place, same, same_place t u]
    | _ => rfl
  | .binary _ op a b =>
    cases t with
    | binary _ op' x y => simp only [place, same, same_place x a, same_place y b]
    | _ => rfl
  | .list _ items =>
    cases t with
    | list _ ts => simp only [place, same, sameAll_placeAll ts items]
    | _ => rfl

theorem sameAll_placeAll (ts : List (Tree κ α)) (us : List (Tree ι α)) (s : Slots) :
    sameAll ts (placeAll us s).1 = sameAll ts us := by
  match us with
  | [] => cases ts <;> rfl
  | u :: us =>
    cases ts with
    | nil => rfl
    | cons t ts => simp only [placeAll, sameAll, same_place t u, sameAll_placeAll ts us]

end

end Tree

namespace Rewrite

/-- Collecting the terms of a sum that is no operand of one. -/
def collectChange : Change α := fun inSum t s =>
  if t.isAdditive && !inSum && !t.same (collectSum t.term) then
    some (((collectSum t.term).place s).1, ((collectSum t.term).place s).2.release t.discard)
  else none

mutual

theorem bottomUp_collect (inSum : Bool) (t : Tree Id α) (s : Slots) (n : Nat) :
    bottomUp collectChange inSum t s n = collect inSum t s n := by
  match t with
  | .literal l v | .var l name | .infinity l => rfl
  | .negate l t =>
    rw [bottomUp, bottomUp_collect, collect]
    rfl
  | .binary l op x y =>
    rw [bottomUp, bottomUp_collect]
    dsimp only
    rw [bottomUp_collect, collect, Change.count, collectChange]
    dsimp only
    generalize collect op.isAdditive x s n = r
    generalize collect op.isAdditive y r.2.1 r.2.2 = r'
    rw [show (Tree.binary l op r.1 r'.1).isAdditive = op.isAdditive from rfl]
    cases op.isAdditive && !inSum with
    | false => rfl
    | true =>
      rw [collectRoot]
      cases (Tree.binary l op r.1 r'.1).same (collectSum (Tree.binary l op r.1 r'.1).term) <;> rfl
  | .list l items =>
    rw [bottomUp, bottomUpAll_collect, collect]
    rfl

theorem bottomUpAll_collect (ts : List (Tree Id α)) (s : Slots) (n : Nat) :
    bottomUpAll collectChange ts s n = collectAll ts s n := by
  match ts with
  | [] => rw [bottomUpAll, collectAll]
  | t :: ts =>
    rw [bottomUpAll, bottomUp_collect, collectAll]
    dsimp only
    rw [bottomUpAll_collect]

end

end Rewrite

namespace Arena

open Rewrite

theorem collectSumAt_does (h : Hole Id α) (t : Tree Id α) (s : Slots) :
    if t.same (collectSum t.term) then Does (collectSumAt t.label) (h.layout s t) (.ok false) (h.layout s t)
    else Does (collectSumAt t.label) (h.layout s t) (.ok true)
      (h.layout (((collectSum t.term).place s).2.release t.discard) ((collectSum t.term).place s).1) := by
  obtain ⟨b, hbuild, hb⟩ := build_plant (collectSum t.term)
  have hsum : b.root = ((collectSum t.term).place {}).1.label := hb.root
  have hsits := (Expr.ofTree (collectSum t.term)).sits_tree
  have hread : ∀ {o m}, Does (if t.same (collectSum t.term) then Pure.pure false else Step.attempt (replace t.label b))
      (h.layout s t) o m → Does (collectSumAt t.label) (h.layout s t) o m := by
    intro o m hrest
    refine (Does.look fun a ha => termFrom_eq ha (h.sits s t)).bind ?_
    refine (Does.look fun a ha => hbuild).bind ?_
    refine (Does.look (b := t.same (collectSum t.term)) fun a ha => ?_).bind hrest
    rw [hsum, ← same_place t (collectSum t.term) {}]
    exact sameAt_eq ha hb (h.sits s t) hsits
  split
  · rename_i hsame
    refine hread ?_
    rw [if_pos hsame]
    exact Does.pure false
  · rename_i hsame
    refine hread ?_
    rw [if_neg hsame]
    have hreplace := replace_does h s t hb hsum hsits
    rw [place_place] at hreplace
    exact hreplace.attempt

theorem follows_collect : Follows (α := α) collectAt collectChange := by
  intro h t s
  have hsum := collectSumAt_does h t s
  have hnode : Does (α := α) (Step.look fun a => .ok (a.node? t.label)) (h.layout s t) (.ok (some t.shape))
      (h.layout s t) := Does.look fun a ha => by rw [ha.node_tree (h.sits s t)]
  have hparent : Does (α := α) (Step.look fun a => .ok (a.parent? t.label)) (h.layout s t) (.ok h.parent?)
      (h.layout s t) := Does.look fun a ha => by rw [ha.parent? (Hole.mem_layout h s t)]
  rw [collectChange]
  cases ht : t.isAdditive with
  | false =>
    refine hnode.bind ?_
    rw [Option.map_some, Option.getD_some, isAdditive_shape, ht]
    exact Does.pure false
  | true =>
    have hread : ∀ {o m}, (h.inSum = false → Does (collectSumAt t.label) (h.layout s t) o m) →
        (h.inSum = true → Does (Pure.pure false) (h.layout s t) o m) → Does (collectAt t.label) (h.layout s t) o m := by
      intro o m hfree hin
      refine hnode.bind ?_
      rw [Option.map_some, Option.getD_some, isAdditive_shape, ht, if_pos rfl]
      refine hparent.bind ?_
      obtain ⟨frames, before, after⟩ := h
      cases frames with
      | nil => exact hfree rfl
      | cons f fs =>
        refine (nodeAt_does (Hole.mem_layout_push ⟨fs, before, after⟩ f s t)).bind ?_
        rw [Frame.isAdditive_node]
        split
        · rename_i hf
          exact hin hf
        · rename_i hf
          exact hfree (Bool.eq_false_iff.mpr hf)
    cases hin : h.inSum with
    | true => exact hread (fun hfree => absurd (hin.symm.trans hfree) (by decide)) fun _ => Does.pure false
    | false =>
      cases hsame : t.same (collectSum t.term) with
      | true =>
        rw [if_pos hsame] at hsum
        exact hread (fun _ => hsum) fun htrue => absurd (hin.symm.trans htrue) (by decide)
      | false =>
        rw [if_neg (Bool.eq_false_iff.mp hsame)] at hsum
        exact hread (fun _ => hsum) fun htrue => absurd (hin.symm.trans htrue) (by decide)

/-- **Collecting like terms.** -/
theorem collectTerms_does (e : Expr α) :
    Does Arena.collectTerms e.layout (.ok e.collectTerms.2) e.collectTerms.1.layout :=
  visitAll_does follows_collect e (bottomUp_collect ..)

end Arena

/-! ## Quotients and differences -/

namespace Rewrite

/-- Rewriting a quotient or a difference. -/
def flattenChange : Change α := fun _ t s =>
  match t with
  | .binary l .div a b => some (.binary l .mul a (inverse b s).1, (inverse b s).2)
  | .binary l .sub a b => some (.binary l .add a (opposite b s).1, (opposite b s).2)
  | _ => none

mutual

theorem bottomUp_flatten (inSum : Bool) (t : Tree Id α) (s : Slots) (n : Nat) :
    bottomUp flattenChange inSum t s n = flatten t s n := by
  match t with
  | .literal l v | .var l name | .infinity l => rfl
  | .negate l t =>
    rw [bottomUp, bottomUp_flatten]
    rfl
  | .binary l op x y =>
    rw [bottomUp, bottomUp_flatten]
    dsimp only
    rw [bottomUp_flatten, flatten]
    cases op <;> rfl
  | .list l items =>
    rw [bottomUp, bottomUpAll_flatten]
    rfl

theorem bottomUpAll_flatten (ts : List (Tree Id α)) (s : Slots) (n : Nat) :
    bottomUpAll flattenChange ts s n = flattenAll ts s n := by
  match ts with
  | [] => rfl
  | t :: ts =>
    rw [bottomUpAll, bottomUp_flatten]
    dsimp only
    rw [bottomUpAll_flatten]
    rfl

end

/-- The first literal factor of a product. -/
def coefficient? : Tree Id α → Option (Id × α)
  | .binary _ .mul (.literal k v) _ => some (k, v)
  | .binary _ .mul _ (.literal k v) => some (k, v)
  | _ => none

end Rewrite

namespace Arena

open Rewrite

variable {s : Slots} {r : Id} {C : Multiset (Id × Cell α)}

omit [Scalar α] in
/-- A new operator above a tree and a new literal. -/
theorem attach_does (op : BinaryOp) (t : Tree Id α) (p : Option Id) (v : α) :
    Does (do let i ← alloc (.literal v); alloc (.binary op t.label i)) ⟨s, r, t.cells p + C⟩
      (.ok s.take.2.take.1)
      ⟨s.take.2.take.2, r, (Tree.binary s.take.2.take.1 op t (.literal s.take.1 v)).cells none + C⟩ := by
  have hliteral := alloc_tree (s := s) (r := r) (C := t.cells p + C) (t := .literal s.take.1 v) rfl
  rw [Tree.children, cellsAll, zero_add] at hliteral
  have hbinary := alloc_each (s := s.take.2) (r := r) (C := C) (t := .binary s.take.2.take.1 op t (.literal s.take.1 v))
    rfl [(p, t), (none, .literal s.take.1 v)] rfl
  refine hliteral.bind (hbinary.of_eq ?_ rfl)
  rw [cellsEach, cellsEach, cellsEach]
  abel

omit [Scalar α] in
/-- Giving a literal that sits there another value. -/
theorem setLiteral_does (k : Id) (v w : α) (p : Option Id) :
    Does (rewire k (.literal w)) ⟨s, r, (Tree.literal k v).cells p + C⟩ (.ok ())
      ⟨s, r, (Tree.literal k w).cells p + C⟩ := by
  have hrewire := rewire_does (s := s) (r := r) (i := k) (p := p) (C := C) (n := .literal w) (m := .literal v)
    [] rfl
  rw [cellsEach, zero_add, List.map_nil, cellsAll, zero_add] at hrewire
  exact hrewire

omit [Scalar α] in
/-- Giving a binary node that sits there new operands that sit there. -/
theorem setOperands_does (l : Id) (op op' : BinaryOp) (i j : Id) (p q q' : Option Id) (a b : Tree Id α) :
    Does (rewire l (.binary op' a.label b.label)) ⟨s, r, {(l, ⟨.binary op i j, p⟩)} + (a.cells q + (b.cells q' + C))⟩
      (.ok ()) ⟨s, r, (Tree.binary l op' a b).cells p + C⟩ := by
  have hrewire := rewire_does (s := s) (r := r) (i := l) (p := p) (C := C) (n := .binary op' a.label b.label)
    (m := .binary op i j) [(q, a), (q', b)] rfl
  refine hrewire.of_eq ?_ ?_
  · rw [cellsEach, cellsEach, cellsEach]
    abel
  · rw [cells_eq, add_assoc]
    rfl

/-- **Making a factor of a divisor**; the factor has an unknown parent. -/
theorem invert_does (t : Tree Id α) (p : Option Id) : ∃ q, Does (invert t.label) ⟨s, r, t.cells p + C⟩
    (.ok (inverse t s).1.label) ⟨(inverse t s).2, r, (inverse t s).1.cells q + C⟩ := by
  have hnode : Does (nodeAt t.label) ⟨s, r, t.cells p + C⟩ (.ok t.shape) ⟨s, r, t.cells p + C⟩ :=
    nodeAt_tree (Layout.Sits.of_add t p)
  have hother := attach_does (s := s) (r := r) (C := C) .pow t p Scalar.minusOne
  cases t with
  | binary l op base exponent =>
    cases op with
    | pow =>
      have hcells : (Tree.binary l .pow base exponent).cells p + C =
          exponent.cells (some l) +
            ({(l, ⟨.binary .pow base.label exponent.label, p⟩)} + (base.cells (some l) + C)) := by
        rw [cells]
        abel
      have hexponent : Does (nodeAt exponent.label) ⟨s, r, (Tree.binary l .pow base exponent).cells p + C⟩
          (.ok exponent.shape) ⟨s, r, (Tree.binary l .pow base exponent).cells p + C⟩ :=
        nodeAt_tree ((Layout.Sits.of_add _ p).child (List.mem_cons_of_mem _ List.mem_cons_self))
      have hnegate : Does (do
          let i ← alloc (.negate exponent.label)
          rewire l (.binary .pow base.label i)
          return l) ⟨s, r, (Tree.binary l .pow base exponent).cells p + C⟩ (.ok l)
          ⟨s.take.2, r, (Tree.binary l .pow base (.negate s.take.1 exponent)).cells p + C⟩ := by
        have halloc := alloc_each (s := s) (r := r) (C := {(l, ⟨.binary .pow base.label exponent.label, p⟩)} +
          (base.cells (some l) + C)) (t := .negate s.take.1 exponent) rfl [(some l, exponent)] rfl
        rw [cellsEach, cellsEach, add_zero] at halloc
        refine (halloc.of_eq hcells rfl).bind (Does.bind (Does.of_eq (setOperands_does l .pow .pow base.label
          exponent.label p (some l) none base (.negate s.take.1 exponent)) ?_ rfl) (Does.pure _))
        abel
      cases exponent with
      | literal k c =>
        refine ⟨p, hnode.bind (hexponent.bind ?_)⟩
        have hset := setLiteral_does (s := s) (r := r) (C := {(l, ⟨.binary .pow base.label k, p⟩)} +
          (base.cells (some l) + C)) k c (Scalar.neg c) (some l)
        refine (hset.of_eq hcells rfl).bind (Does.bind (Does.of_eq (setOperands_does l .pow .pow base.label k p (some l)
          (some l) base (.literal k (Scalar.neg c))) ?_ rfl) (Does.pure _))
        abel
      | _ => exact ⟨p, hnode.bind (hexponent.bind hnegate)⟩
    | _ => exact ⟨none, hnode.bind hother⟩
  | _ => exact ⟨none, hnode.bind hother⟩

omit [Scalar α] in
theorem coefficientOf_does {l : Layout α} {t : Tree Id α} (ht : l.Sits t) :
    Does (coefficientOf t.shape) l (.ok (coefficient? t)) l := by
  cases t with
  | binary i op a b =>
    cases op with
    | mul =>
      have hleft := nodeAt_tree (ht.child (c := a) List.mem_cons_self)
      have hright := nodeAt_tree (ht.child (c := b) (List.mem_cons_of_mem _ List.mem_cons_self))
      cases a with
      | literal k v => exact hleft.bind (Does.pure _)
      | _ => exact hleft.bind (hright.bind (by cases b <;> exact Does.pure _))
    | _ => exact Does.pure _
  | _ => exact Does.pure _

/-- **Making a summand of a subtrahend**; the summand has an unknown parent. -/
theorem negated_does (t : Tree Id α) (p : Option Id) : ∃ q, Does (negated t.label) ⟨s, r, t.cells p + C⟩
    (.ok (opposite t s).1.label) ⟨(opposite t s).2, r, (opposite t s).1.cells q + C⟩ := by
  have hnode : Does (nodeAt t.label) ⟨s, r, t.cells p + C⟩ (.ok t.shape) ⟨s, r, t.cells p + C⟩ :=
    nodeAt_tree (Layout.Sits.of_add t p)
  have hcoefficient := coefficientOf_does (Layout.Sits.of_add (s := s) (r := r) (C := C) t p)
  have hother := attach_does (s := s) (r := r) (C := C) .mul t p Scalar.minusOne
  fun_cases opposite t s with
  | case1 l k v b =>
    have hset := setLiteral_does (s := s) (r := r) (C := {(l, ⟨.binary .mul k b.label, p⟩)} +
      (b.cells (some l) + C)) k v (Scalar.neg v) (some l)
    refine ⟨p, hnode.bind (hcoefficient.bind (Does.bind (hset.of_eq ?_ ?_) (Does.pure _)))⟩
    · rw [cells_binary]
      change {(l, ⟨.binary .mul k b.label, p⟩)} + _ + C = _
      abel
    · rw [cells_binary]
      change {(l, ⟨.binary .mul k b.label, p⟩)} + _ + C = _
      abel
  | case2 l a k v s ha =>
    have hright : coefficient? (.binary l .mul a (.literal k v)) = some (k, v) := by
      cases a with
      | literal i w => exact absurd rfl (ha i w)
      | _ => rfl
    rw [hright] at hcoefficient
    have hset := setLiteral_does (s := s) (r := r) (C := {(l, ⟨.binary .mul a.label k, p⟩)} +
      (a.cells (some l) + C)) k v (Scalar.neg v) (some l)
    refine ⟨p, hnode.bind (hcoefficient.bind (Does.bind (hset.of_eq ?_ ?_) (Does.pure _)))⟩
    · rw [cells_binary]
      change {(l, ⟨.binary .mul a.label k, p⟩)} + _ + C = _
      abel
    · rw [cells_binary]
      change {(l, ⟨.binary .mul a.label k, p⟩)} + _ + C = _
      abel
  | case3 t s hleft hright i s' hi j s'' hj =>
    have hnone : coefficient? t = none := by
      cases t with
      | binary l op a b =>
        cases op with
        | mul =>
          cases a with
          | literal k v => exact absurd rfl (hleft l k v b)
          | _ =>
            cases b with
            | literal k v => exact absurd rfl (hright l _ k v)
            | _ => rfl
        | _ => rfl
      | _ => rfl
    rw [hnone] at hcoefficient
    rw [hi] at hother
    dsimp only at hother
    rw [hj] at hother
    exact ⟨none, hnode.bind (hcoefficient.bind hother)⟩

theorem follows_flatten : Follows (α := α) flattenAt flattenChange := by
  intro h t s
  have hnode := nodeAt_tree (h.sits s t)
  cases t with
  | binary l op a b =>
    have hcells : (h.layout s (.binary l op a b)).cells = b.cells (some l) +
        ({(l, ⟨.binary op a.label b.label, h.parent?⟩)} + (a.cells (some l) + h.around l)) := by
      rw [Hole.layout, cells_binary]
      change {(l, (⟨.binary op a.label b.label, h.parent?⟩ : Cell α))} + _ + h.around l = _
      abel
    have hset : ∀ (op' : BinaryOp) (b' : Tree Id α) (s' : Slots) (q : Option Id),
        Does (rewire l (.binary op' a.label b'.label)) ⟨s', h.root l, b'.cells q +
          ({(l, ⟨.binary op a.label b.label, h.parent?⟩)} + (a.cells (some l) + h.around l))⟩ (.ok ())
          (h.layout s' (.binary l op' a b')) := by
      intro op' b' s' q
      refine (setOperands_does l op op' a.label b.label h.parent? (some l) q a b').of_eq ?_ rfl
      abel
    cases op with
    | div =>
      obtain ⟨q, hinvert⟩ := invert_does (s := s) (r := h.root l)
        (C := {(l, ⟨.binary .div a.label b.label, h.parent?⟩)} + (a.cells (some l) + h.around l)) b (some l)
      exact hnode.bind ((hinvert.of_eq hcells rfl).bind ((hset .mul _ _ q).bind (Does.pure true)))
    | sub =>
      obtain ⟨q, hnegated⟩ := negated_does (s := s) (r := h.root l)
        (C := {(l, ⟨.binary .sub a.label b.label, h.parent?⟩)} + (a.cells (some l) + h.around l)) b (some l)
      exact hnode.bind ((hnegated.of_eq hcells rfl).bind ((hset .add _ _ q).bind (Does.pure true)))
    | _ => exact hnode.bind (Does.pure false)
  | _ => exact hnode.bind (Does.pure false)

/-- **Rewriting quotients and differences.** -/
theorem eliminateQuotients_does (e : Expr α) :
    Does Arena.eliminateQuotients e.layout (.ok e.eliminateQuotients.2) e.eliminateQuotients.1.layout :=
  visitAll_does follows_flatten e (bottomUp_flatten ..)

end Arena

end SignalFlow
