import SignalFlow.Proofs.Arena.Passes
import SignalFlow.Proofs.Rewrite.Turns

/-!
# Turns in the arena of an expression

A turn overwrites the two nodes it is about (`rotate_does`), and the turns at a node are those of `turnAll`
(`rotateAll_does`). A sweep through the labels of an expression, listed before the first turn, is the sweep of the tree
(`sweep_does`).
-/

namespace SignalFlow

open Arena SignalFlow.Tree Rewrite

variable {α : Type}

namespace Rewrite

/-- The turns at a node are fewer than the nodes of the right operand. -/
theorem turns_le {ι : Type} (outer : BinaryOp) (a b : Tree ι α) : (turnAll outer a b).turns ≤ b.size := by
  fun_induction turnAll outer a b with
  | case1 outer a l inner b c o i h r ih =>
    have ih : r.turns ≤ c.size := ih
    simp only [Tree.size]
    omega
  | case2 outer a l inner b c o i h r ih =>
    have ih : r.turns ≤ b.size := ih
    simp only [Tree.size]
    omega
  | case3 | case4 =>
    simp only [Tree.size]
    omega
  | _ => exact Nat.zero_le _

/-- There is no turn between operators of different chains. -/
theorem turn?_eq_none {outer inner : BinaryOp} (h : inner.sameFamily outer = false) (b : Bool) :
    turn? outer inner b = none := by
  cases outer <;> cases inner <;> first | rfl | cases h

/-- Operands are exchanged only if the left one is no part of the chain. -/
theorem turn?_exchange {outer inner o i : BinaryOp} {b : Bool}
    (h : turn? outer inner b = some (.exchange o i) ∨ turn? outer inner b = some (.reverse o i)) : b = false := by
  cases b with
  | false => rfl
  | true => cases outer <;> cases inner <;> simp [turn?] at h

theorem turnAtAll_append {ι : Type} [DecidableEq ι] (i : ι) (ts us : List (Tree ι α)) :
    turnAtAll i (ts ++ us) =
      ((turnAtAll i ts).1 ++ (turnAtAll i us).1, (turnAtAll i ts).2 + (turnAtAll i us).2) := by
  induction ts with
  | nil => rw [List.nil_append, turnAtAll, List.nil_append, Nat.zero_add]
  | cons t ts ih => rw [List.cons_append, turnAtAll, turnAtAll, ih, List.cons_append, Nat.add_assoc]

/-- A frame without the label has no turns at it. -/
theorem turnAt_frame {ι : Type} [DecidableEq ι] {f : Frame ι α} {i : ι} (hi : i ∉ f.labels) (t : Tree ι α) :
    turnAt i (f.fill t) = (f.fill (turnAt i t).1, (turnAt i t).2) := by
  rw [Frame.labels, List.mem_cons, not_or, Frame.siblings, List.flatMap_append, List.mem_append, not_or] at hi
  obtain ⟨hlabel, hbefore, hafter⟩ := hi
  cases f with
  | negate l => rfl
  | left l op b =>
    have hb : i ∉ b.labels := by simpa [Frame.after] using hafter
    rw [Frame.fill, turnAt, if_neg fun h => hlabel h.symm, turnAt_of_not_mem hb]
    rfl
  | right l op a =>
    have ha : i ∉ a.labels := by simpa [Frame.before] using hbefore
    rw [Frame.fill, turnAt, if_neg fun h => hlabel h.symm, turnAt_of_not_mem ha, Nat.zero_add]
    rfl
  | item l before after =>
    have hb : turnAtAll i before = (before, 0) := turnAtAll_of_not_mem hbefore
    have ha : turnAtAll i after = (after, 0) := turnAtAll_of_not_mem hafter
    rw [Frame.fill, turnAt, turnAtAll_append, turnAtAll, hb, ha, Nat.zero_add]
    rfl

theorem turnAt_plug {ι : Type} [DecidableEq ι] {fs : List (Frame ι α)} {i : ι} (hi : i ∉ fs.flatMap Frame.labels)
    (t : Tree ι α) : turnAt i (plug fs t) = (plug fs (turnAt i t).1, (turnAt i t).2) := by
  induction fs generalizing t with
  | nil => rfl
  | cons f fs ih =>
    rw [List.flatMap_cons, List.mem_append, not_or] at hi
    rw [plug, ih hi.2, turnAt_frame hi.1, plug]

/-- There are no turns at a root that is no operator. -/
theorem turnAt_root {ι : Type} [DecidableEq ι] {t : Tree ι α} (hlabel : t.label ∉ t.children.flatMap labels)
    (hop : ¬ ∃ l op a b, t = .binary l op a b) : turnAt t.label t = (t, 0) := by
  cases t with
  | literal | var | infinity => rfl
  | negate l t =>
    rw [turnAt, turnAt_of_not_mem (t := t) (by simpa [Tree.children] using hlabel)]
  | binary l op a b => exact absurd ⟨l, op, a, b, rfl⟩ hop
  | list l items => 
    have hitems : turnAtAll l items = (items, 0) := turnAtAll_of_not_mem hlabel
    rw [Tree.label, turnAt, hitems]

end Rewrite

namespace Arena

variable {s : Slots}

/-- A tree after a turn. -/
def turnedTree (t : Turn) (l k : Id) (a b c : Tree Id α) : Tree Id α :=
  .binary l (turned t a b c).1 (.binary k (turned t a b c).2.1 (turned t a b c).2.2.1 (turned t a b c).2.2.2.1)
    (turned t a b c).2.2.2.2

/-- Overwriting a node and its right operand, so that the operands of the right one are on the left. -/
theorem regroup_does (h : Hole Id α) {l k : Id} {outer inner o i : BinaryOp} {a b c x y z : Tree Id α}
    {p q u : Option Id} (hcells : x.cells p + (y.cells q + z.cells u) =
      a.cells (some l) + (b.cells (some k) + c.cells (some k))) :
    Does (do rewire k (.binary i x.label y.label); rewire l (.binary o k z.label); return true)
      (h.layout s (.binary l outer a (.binary k inner b c))) (.ok true)
      (h.layout s (.binary l o (.binary k i x y) z)) := by
  have hinner := setOperands_does (s := s) (r := h.root l) (C := {(l, ⟨.binary outer a.label k, h.parent?⟩)} +
    (z.cells u + h.around l)) k inner i b.label c.label (some l) p q x y
  have houter := setOperands_does (s := s) (r := h.root l) (C := h.around l) l outer o a.label k h.parent? (some l) u
    (.binary k i x y) z
  refine (hinner.of_eq ?_ rfl).bind ((houter.of_eq ?_ rfl).bind (Does.pure true))
  · rw [cells_binary, cells_binary]
    change {(l, (⟨.binary outer a.label k, h.parent?⟩ : Cell α))} + _ + h.around l = _
    have hx : x.cells p + (y.cells q + ({(l, ⟨.binary outer a.label k, h.parent?⟩)} + (z.cells u + h.around l))) =
        x.cells p + (y.cells q + z.cells u) + ({(l, ⟨.binary outer a.label k, h.parent?⟩)} + h.around l) := by abel
    rw [hx, hcells]
    abel
  · abel

/-- **A turn in a hole.** -/
theorem rotate_does (h : Hole Id α) {l k : Id} {outer inner : BinaryOp} {a b c : Tree Id α} {t : Turn}
    (ht : turn? outer inner (inChain outer a) = some t) :
    Does (rotate l) (h.layout s (.binary l outer a (.binary k inner b c))) (.ok true)
      (h.layout s (turnedTree t l k a b c)) := by
  have hsits := h.sits s (.binary l outer a (.binary k inner b c))
  refine (nodeAt_tree hsits).bind ?_
  refine (nodeAt_tree (hsits.child (c := .binary k inner b c) (List.mem_cons_of_mem _ List.mem_cons_self))).bind ?_
  refine (nodeAt_tree (hsits.child (c := a) List.mem_cons_self)).bind ?_
  rw [op?_shape, show (a.op?.any (BinaryOp.sameFamily · outer)) = inChain outer a from rfl, ht]
  cases t with
  | associate o i => exact regroup_does h (x := a) (y := b) (z := c) rfl
  | cross o i => exact regroup_does h (x := a) (y := c) (z := b) (by rw [add_comm (c.cells _)])
  | exchange o i =>
    refine regroup_does h (x := b) (y := c) (z := a) (p := some k) (q := some k) (u := some l) ?_
    change _ = a.cells (some l) + (b.cells (some k) + c.cells (some k))
    abel
  | reverse o i =>
    refine regroup_does h (x := c) (y := b) (z := a) (p := some k) (q := some k) (u := some l) ?_
    change _ = a.cells (some l) + (b.cells (some k) + c.cells (some k))
    abel

/-- A node whose right operand does not go on with the chain. -/
theorem rotate_stays (h : Hole Id α) {l : Id} {outer : BinaryOp} {a b : Tree Id α}
    (hb : ∀ k inner x y, b = .binary k inner x y → turn? outer inner (inChain outer a) = none) :
    Does (rotate l) (h.layout s (.binary l outer a b)) (.ok false) (h.layout s (.binary l outer a b)) := by
  have hsits := h.sits s (.binary l outer a b)
  refine (nodeAt_tree hsits).bind ?_
  refine (nodeAt_tree (hsits.child (c := b) (List.mem_cons_of_mem _ List.mem_cons_self))).bind ?_
  cases b with
  | binary k inner x y =>
    refine (nodeAt_tree (hsits.child (c := a) List.mem_cons_self)).bind ?_
    rw [op?_shape, show (a.op?.any (BinaryOp.sameFamily · outer)) = inChain outer a from rfl, hb k inner x y rfl]
    exact Does.pure false
  | _ => exact Does.pure false

/-- After the operands were exchanged there are no more turns. -/
theorem rotate_exchanged (h : Hole Id α) {l : Id} {outer inner o : BinaryOp} {t : Turn} {a b : Tree Id α} {d : Bool}
    (ht : turn? outer inner d = some t) (ho : t.outer = o) (ha : inChain outer a = false) :
    Does (rotate l) (h.layout s (.binary l o b a)) (.ok false) (h.layout s (.binary l o b a)) := by
  refine rotate_stays h fun k inner' x y hxy => turn?_eq_none ?_ _
  rw [← ho, sameFamily_turn ht]
  rw [hxy] at ha
  exact ha

/-- **The turns at an operator**, as long as there are any. -/
theorem rotateAll_binary (h : Hole Id α) (l : Id) (outer : BinaryOp) (a b : Tree Id α) (fuel n : Nat)
    (hfuel : (turnAll outer a b).turns < fuel) :
    Does (rotateAll l fuel n) (h.layout s (.binary l outer a b)) (.ok (n + (turnAll outer a b).turns))
      (h.layout s (.binary l (turnAll outer a b).op (turnAll outer a b).left (turnAll outer a b).right)) := by
  fun_induction turnAll outer a b generalizing fuel n with
  | case1 outer a k inner b c o i ht r =>
    rename_i ih
    obtain ⟨fuel, rfl⟩ := Nat.exists_eq_add_one_of_ne_zero (Nat.ne_zero_of_lt hfuel)
    have hrest := ih fuel (n + 1) (Nat.lt_of_succ_lt_succ hfuel)
    rw [Nat.add_assoc, Nat.add_comm 1] at hrest
    exact (rotate_does h ht).bind hrest
  | case2 outer a k inner b c o i ht r =>
    rename_i ih
    obtain ⟨fuel, rfl⟩ := Nat.exists_eq_add_one_of_ne_zero (Nat.ne_zero_of_lt hfuel)
    have hrest := ih fuel (n + 1) (Nat.lt_of_succ_lt_succ hfuel)
    rw [Nat.add_assoc, Nat.add_comm 1] at hrest
    exact (rotate_does h ht).bind hrest
  | case3 outer a k inner b c o i ht =>
    obtain ⟨fuel, rfl⟩ := Nat.exists_eq_add_of_le' (Nat.succ_le_of_lt hfuel)
    have hstays := rotate_exchanged (s := s) h (l := l) (b := .binary k i b c) ht rfl (turn?_exchange (.inl ht))
    exact (rotate_does h ht).bind (hstays.bind (Does.pure _))
  | case4 outer a k inner b c o i ht =>
    obtain ⟨fuel, rfl⟩ := Nat.exists_eq_add_of_le' (Nat.succ_le_of_lt hfuel)
    have hstays := rotate_exchanged (s := s) h (l := l) (b := .binary k i c b) ht rfl (turn?_exchange (.inr ht))
    exact (rotate_does h ht).bind (hstays.bind (Does.pure _))
  | case5 outer a k inner b c ht =>
    obtain ⟨fuel, rfl⟩ := Nat.exists_eq_add_one_of_ne_zero (Nat.ne_zero_of_lt hfuel)
    refine (rotate_stays h fun k' inner' x y hxy => ?_).bind (Does.pure _)
    cases hxy
    exact ht
  | _ =>
    obtain ⟨fuel, rfl⟩ := Nat.exists_eq_add_one_of_ne_zero (Nat.ne_zero_of_lt hfuel)
    refine (rotate_stays h fun k' inner' x y hxy => ?_).bind (Does.pure _)
    cases hxy

/-! ## Turns at a label -/

/-- **The turns at the node in a hole.** -/
theorem rotateAll_does (h : Hole Id α) {t : Tree Id α} (hlabel : t.label ∉ t.children.flatMap labels) {fuel n : Nat}
    (hfuel : t.size < fuel) : Does (rotateAll t.label fuel n) (h.layout s t) (.ok (n + (turnAt t.label t).2))
      (h.layout s (turnAt t.label t).1) := by
  by_cases hop : ∃ l op a b, t = .binary l op a b
  · obtain ⟨l, op, a, b, rfl⟩ := hop
    have hturns := turns_le op a b
    rw [Tree.size] at hfuel
    have hbinary := rotateAll_binary (s := s) h l op a b fuel n (by omega)
    change Does (rotateAll l fuel n) _ (.ok (n + (turnAt l (.binary l op a b)).2))
      (h.layout s (turnAt l (.binary l op a b)).1)
    rwa [turnAt, if_pos rfl]
  · obtain ⟨fuel, rfl⟩ := Nat.exists_eq_add_one_of_ne_zero (Nat.ne_zero_of_lt hfuel)
    have hstays : Does (rotate t.label) (h.layout s t) (.ok false) (h.layout s t) := by
      refine (nodeAt_tree (h.sits s t)).bind ?_
      cases t with
      | binary l op a b => exact absurd ⟨l, op, a, b, rfl⟩ hop
      | _ => exact Does.pure false
    rw [turnAt_root hlabel hop]
    exact hstays.bind (Does.pure n)

section Root

variable (before after : List (Tree Id α)) {t : Tree Id α} {n : Nat}

/-- **The turns at a label** of a tree of a forest. -/
theorem rotateAt_does {i : Id} (hi : i ∈ t.labels) :
    Does (do let fuel ← Step.look fun a => .ok a.limit; rotateAll i fuel n) (Hole.layout ⟨[], before, after⟩ s t)
      (.ok (n + (turnAt i t).2)) (Hole.layout ⟨[], before, after⟩ s (turnAt i t).1) := by
  obtain ⟨fs, u, rfl, rfl⟩ := exists_plug hi
  refine Does.of_whole fun hwhole => ?_
  have hlabels := hwhole.nodup_labels (Hole.sits _ s _)
  have hinner := List.nodup_append.mp ((labels_plug fs u).nodup_iff.mp hlabels)
  have hframes : u.label ∉ fs.flatMap Frame.labels := fun h =>
    hinner.2.2 u.label u.label_mem_labels u.label h rfl
  have hroot : u.label ∉ u.children.flatMap labels := by
    have hu := hinner.1
    rw [labels_eq, List.nodup_cons] at hu
    exact hu.1
  rw [turnAt_plug hframes, ← Hole.layout_plug, ← Hole.layout_plug]
  rw [← Hole.layout_plug] at hwhole
  have hsize := hwhole.size_le (Hole.sits _ s u)
  refine Does.bind (b := s.size + 1) (Does.look fun a ha => ?_) ?_
  · rw [limit, ha.size]
    rfl
  · exact rotateAll_does ⟨fs, before, after⟩ hroot (Nat.lt_succ_of_le hsize)

theorem rotateEach_does {order : List Id} (horder : order ⊆ t.labels) :
    Does (rotateEach order n) (Hole.layout ⟨[], before, after⟩ s t) (.ok (n + (runTurns order t).2))
      (Hole.layout ⟨[], before, after⟩ s (runTurns order t).1) := by
  induction order generalizing t n with
  | nil => exact Does.pure n
  | cons i rest ih =>
    have hfirst := rotateAt_does (s := s) before after (n := n) (horder List.mem_cons_self)
    have hrest := ih (t := (turnAt i t).1) (n := n + (turnAt i t).2) fun j hj =>
      (labels_turnAt i t).mem_iff.mpr (horder (List.mem_cons_of_mem _ hj))
    rw [Nat.add_assoc] at hrest
    rw [runTurns]
    exact hfirst.bind hrest

/-- **A sweep** through the labels of a tree, listed before the first turn. -/
theorem sweep_does : Does Arena.sweep (Hole.layout ⟨[], [], after⟩ s t) (.ok (Rewrite.sweep t).2)
    (Hole.layout ⟨[], [], after⟩ s (Rewrite.sweep t).1) := by
  have hsits := Hole.sits ⟨[], [], after⟩ s t
  refine Does.of_whole fun hwhole => ?_
  have hlabels := hwhole.nodup_labels hsits
  refine Does.bind (b := t.labels) (Does.look fun a ha => ?_) ?_
  · rw [ha.root]
    exact preorderFrom_eq ha hsits
  · have heach := rotateEach_does (s := s) [] after (n := 0) (List.Subset.refl t.labels)
    rwa [Nat.zero_add, runTurns_eq_sweep t hlabels hlabels (List.Subset.refl _)
      (ParentsFirst.of_sublist (List.Sublist.refl _)).rightsLater] at heach

theorem sweepUntil_does (fuel : Nat) : Does (Arena.sweepUntil fuel n) (Hole.layout ⟨[], [], after⟩ s t)
    (.ok (Rewrite.sweepUntil fuel t n).2) (Hole.layout ⟨[], [], after⟩ s (Rewrite.sweepUntil fuel t n).1) := by
  induction fuel generalizing t n with
  | zero => exact Does.pure n
  | succ fuel ih =>
    have hsweep := sweep_does (s := s) (t := t) after
    rw [Rewrite.sweepUntil]
    cases hresult : Rewrite.sweep t with
    | mk u m =>
      rw [hresult] at hsweep
      cases m with
      | zero => exact hsweep.bind (Does.pure n)
      | succ m => exact hsweep.bind ih

end Root

/-- **Making chains lean to the left.** -/
theorem normalizeChains_does (e : Expr α) :
    Does Arena.normalizeChains e.layout (.ok e.normalizeChains.2) e.normalizeChains.1.layout := by
  have hsweeps := sweepUntil_does (s := e.slots) (t := e.tree) (n := 0) e.detached maxSweeps
  rwa [← e.layout_with, ← e.layout_with] at hsweeps

end Arena

end SignalFlow
