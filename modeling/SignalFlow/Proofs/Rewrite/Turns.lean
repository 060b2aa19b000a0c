import Mathlib.Data.List.Nodup
import SignalFlow.Proofs.Expr.Walk
import SignalFlow.Rewrite.Chain

/-!
# The order of turns

A sweep turns each node before it goes on to the operands that the node has after its turns. A sweep through a list of
labels that was made before the first turn meets the nodes in another order: a turn moves a left operand below a node
that the list has after it. The result is the same (`runTurns_eq_sweep`), for two reasons. A turn at a node and the
turns inside of its left operand do not depend on each other (`turnAll_turnAt`). And after its turns a node has no right
operands but those whose labels come later in the list (`RightsLater`), which the turns keep (`rightsLater_turnAll`).
-/

namespace SignalFlow.Rewrite

open SignalFlow.Tree

variable {ι α : Type} [DecidableEq ι]

/-! ## Turns at one node -/

mutual

/-- **The turns at the node of a label**, and how many there are. -/
def turnAt (i : ι) : Tree ι α → Tree ι α × Nat
  | .literal l v => (.literal l v, 0)
  | .var l name => (.var l name, 0)
  | .infinity l => (.infinity l, 0)
  | .negate l t => (.negate l (turnAt i t).1, (turnAt i t).2)
  | .binary l op a b =>
    if l = i then (.binary l (turnAll op a b).op (turnAll op a b).left (turnAll op a b).right, (turnAll op a b).turns)
    else (.binary l op (turnAt i a).1 (turnAt i b).1, (turnAt i a).2 + (turnAt i b).2)
  | .list l items => (.list l (turnAtAll i items).1, (turnAtAll i items).2)

/-- The turns at the node of a label in several trees. -/
def turnAtAll (i : ι) : List (Tree ι α) → List (Tree ι α) × Nat
  | [] => ([], 0)
  | t :: ts => ((turnAt i t).1 :: (turnAtAll i ts).1, (turnAt i t).2 + (turnAtAll i ts).2)

end

/-- The turns at nodes, one node after the other, and how many there are. -/
def runTurns : List ι → Tree ι α → Tree ι α × Nat
  | [], t => (t, 0)
  | i :: rest, t => ((runTurns rest (turnAt i t).1).1, (turnAt i t).2 + (runTurns rest (turnAt i t).1).2)

/-- The turns at nodes of several trees. -/
def runTurnsAll (order : List ι) : List (Tree ι α) → List (Tree ι α) × Nat
  | [] => ([], 0)
  | t :: ts => ((runTurns order t).1 :: (runTurnsAll order ts).1, (runTurns order t).2 + (runTurnsAll order ts).2)

section Labels

/-- Turns keep the labels. -/
theorem labels_turnAll (outer : BinaryOp) (a b : Tree ι α) :
    ((turnAll outer a b).left.labels ++ (turnAll outer a b).right.labels).Perm (a.labels ++ b.labels) := by
  fun_induction turnAll outer a b with
  | case1 outer a l inner b c o i h r ih =>
    refine ih.trans (List.perm_iff_count.mpr fun k => ?_)
    simp only [labels_binary, List.count_append, List.count_cons]
    omega
  | case2 outer a l inner b c o i h r ih =>
    refine ih.trans (List.perm_iff_count.mpr fun k => ?_)
    simp only [labels_binary, List.count_append, List.count_cons]
    omega
  | case3 outer a l inner b c o i h =>
    exact List.perm_append_comm
  | case4 outer a l inner b c o i h =>
    refine List.perm_iff_count.mpr fun k => ?_
    simp only [labels_binary, List.count_append, List.count_cons]
    omega
  | _ => exact List.Perm.refl _

mutual

theorem labels_turnAt (i : ι) (t : Tree ι α) : (turnAt i t).1.labels.Perm t.labels := by
  match t with
  | .literal _ _ | .var _ _ | .infinity _ => exact List.Perm.refl _
  | .negate l t =>
    rw [turnAt, labels_negate, labels_negate]
    exact List.Perm.cons l (labels_turnAt i t)
  | .binary l op a b =>
    rw [turnAt]
    split
    · rw [labels_binary, labels_binary]
      exact List.Perm.cons l (labels_turnAll op a b)
    · rw [labels_binary, labels_binary]
      exact List.Perm.cons l ((labels_turnAt i a).append (labels_turnAt i b))
  | .list l items =>
    rw [turnAt, labels_list, labels_list]
    exact List.Perm.cons l (labels_turnAtAll i items)

theorem labels_turnAtAll (i : ι) (ts : List (Tree ι α)) :
    ((turnAtAll i ts).1.flatMap labels).Perm (ts.flatMap labels) := by
  match ts with
  | [] => exact List.Perm.refl _
  | t :: ts => exact (labels_turnAt i t).append (labels_turnAtAll i ts)

end

mutual

/-- There are no turns at a label that does not occur. -/
theorem turnAt_of_not_mem {i : ι} {t : Tree ι α} (hi : i ∉ t.labels) : turnAt i t = (t, 0) := by
  rw [labels_eq, List.mem_cons, not_or] at hi
  match t with
  | .literal _ _ | .var _ _ | .infinity _ => rfl
  | .negate l t =>
    rw [turnAt, turnAt_of_not_mem (t := t) (by simpa [Tree.children] using hi.2)]
  | .binary l op a b =>
    have hab : i ∉ a.labels ∧ i ∉ b.labels := by simpa [Tree.children] using hi.2
    rw [turnAt, if_neg fun h => hi.1 h.symm, turnAt_of_not_mem hab.1, turnAt_of_not_mem hab.2, Nat.zero_add]
  | .list l items =>
    have hitems : turnAtAll i items = (items, 0) := turnAtAll_of_not_mem hi.2
    rw [turnAt, hitems]

theorem turnAtAll_of_not_mem {i : ι} {ts : List (Tree ι α)} (hi : i ∉ ts.flatMap labels) :
    turnAtAll i ts = (ts, 0) := by
  match ts with
  | [] => rfl
  | t :: ts =>
    rw [List.flatMap_cons, List.mem_append, not_or] at hi
    rw [turnAtAll, turnAt_of_not_mem hi.1, turnAtAll_of_not_mem hi.2, Nat.zero_add]

end

end Labels

/-! ## Chains -/

/-- The outer operator after a turn. -/
def Turn.outer : Turn → BinaryOp
  | .associate o _ | .cross o _ | .exchange o _ | .reverse o _ => o

/-- A turn stays in the chain. -/
theorem sameFamily_turn {outer inner : BinaryOp} {b : Bool} {t : Turn} (h : turn? outer inner b = some t)
    (op : BinaryOp) : op.sameFamily t.outer = op.sameFamily outer := by
  cases outer <;> cases inner <;> cases b <;> simp only [turn?, reduceCtorEq, Option.some.injEq] at h <;> subst h <;>
    cases op <;> rfl

omit [DecidableEq ι] in
/-- Turns stay in the chain. -/
theorem sameFamily_turnAll (outer : BinaryOp) (a b : Tree ι α) (op : BinaryOp) :
    op.sameFamily (turnAll outer a b).op = op.sameFamily outer := by
  fun_induction turnAll outer a b with
  | case1 outer a l inner b c o i h r ih => exact ih.trans (sameFamily_turn h op)
  | case2 outer a l inner b c o i h r ih => exact ih.trans (sameFamily_turn h op)
  | case3 outer a l inner b c o i h => exact sameFamily_turn h op
  | case4 outer a l inner b c o i h => exact sameFamily_turn h op
  | _ => rfl

theorem sameFamily_comm (o p : BinaryOp) : o.sameFamily p = p.sameFamily o := by
  cases o <;> cases p <;> rfl

/-- Turns inside of a tree do not change whether it belongs to a chain. -/
theorem inChain_turnAt (i : ι) (op : BinaryOp) (t : Tree ι α) : inChain op (turnAt i t).1 = inChain op t := by
  cases t with
  | binary l inner a b =>
    rw [turnAt]
    split
    · change (turnAll inner a b).op.sameFamily op = inner.sameFamily op
      rw [sameFamily_comm, sameFamily_turnAll, sameFamily_comm]
    · rfl
  | _ => rfl

/-- **Turns inside of the left operand** do not depend on the turns at a node. -/
theorem turnAll_turnAt {i : ι} (outer : BinaryOp) (a : Tree ι α) {b : Tree ι α} (hi : i ∉ b.labels) :
    turnAll outer (turnAt i a).1 b = { turnAll outer a b with
      left := (turnAt i (turnAll outer a b).left).1, right := (turnAt i (turnAll outer a b).right).1 } ∧
    (turnAt i (turnAll outer a b).left).2 + (turnAt i (turnAll outer a b).right).2 = (turnAt i a).2 := by
  fun_induction turnAll outer a b with
  | case1 outer a l inner b c o p h r ih =>
    rw [labels_binary, List.mem_cons, List.mem_append, not_or, not_or] at hi
    obtain ⟨hl, hb, hc⟩ := hi
    have hleft : turnAt i (.binary l p a b) = (.binary l p (turnAt i a).1 b, (turnAt i a).2) := by
      rw [turnAt, if_neg fun h => hl h.symm, turnAt_of_not_mem hb, Nat.add_zero]
    obtain ⟨hturn, hcount⟩ := ih hc
    rw [hleft] at hturn hcount
    rw [turnAll, inChain_turnAt, h]
    exact ⟨congrArg (fun r => { r with turns := r.turns + 1 }) hturn, hcount⟩
  | case2 outer a l inner b c o p h r ih =>
    rw [labels_binary, List.mem_cons, List.mem_append, not_or, not_or] at hi
    obtain ⟨hl, hb, hc⟩ := hi
    have hleft : turnAt i (.binary l p a c) = (.binary l p (turnAt i a).1 c, (turnAt i a).2) := by
      rw [turnAt, if_neg fun h => hl h.symm, turnAt_of_not_mem hc, Nat.add_zero]
    obtain ⟨hturn, hcount⟩ := ih hb
    rw [hleft] at hturn hcount
    rw [turnAll, inChain_turnAt, h]
    exact ⟨congrArg (fun r => { r with turns := r.turns + 1 }) hturn, hcount⟩
  | case3 outer a l inner b c o p h =>
    have hleft : turnAt i (.binary l p b c) = (.binary l p b c, 0) := turnAt_of_not_mem hi
    rw [turnAll, inChain_turnAt, h, hleft]
    exact ⟨rfl, Nat.zero_add _⟩
  | case4 outer a l inner b c o p h =>
    rw [labels_binary, List.mem_cons, List.mem_append, not_or, not_or] at hi
    obtain ⟨hl, hb, hc⟩ := hi
    have hleft : turnAt i (.binary l p c b) = (.binary l p c b, 0) := by
      refine turnAt_of_not_mem ?_
      simp [labels_binary, hl, hb, hc]
    rw [turnAll, inChain_turnAt, h, hleft]
    exact ⟨rfl, Nat.zero_add _⟩
  | case5 outer a l inner b c h =>
    rw [turnAll, inChain_turnAt, h, turnAt_of_not_mem hi]
    exact ⟨rfl, rfl⟩
  | _ =>
    rw [turnAt_of_not_mem hi]
    exact ⟨rfl, rfl⟩

/-! ## Lists made before the first turn -/

omit [DecidableEq ι] in
/-- **Every node of a tree comes before the nodes below it.** -/
inductive ParentsFirst (order : List ι) : Tree ι α → Prop where
  | intro {t : Tree ι α} (hroot : ∀ j ∈ t.children.flatMap labels, [t.label, j].Sublist order)
      (hchildren : ∀ c ∈ t.children, ParentsFirst order c) : ParentsFirst order t

/-- **Every operator comes before the nodes of its right operand**, and they are in order themselves. -/
inductive RightsLater (order : List ι) : Tree ι α → Prop where
  | binary {l : ι} {op : BinaryOp} {a b : Tree ι α} (hleft : RightsLater order a) (hright : ParentsFirst order b)
      (hroot : ∀ j ∈ b.labels, [l, j].Sublist order) : RightsLater order (.binary l op a b)
  | other {t : Tree ι α} (hop : t.op? = none) (hchildren : ∀ c ∈ t.children, RightsLater order c) :
      RightsLater order t

section Order

variable {order : List ι} {t : Tree ι α}

omit [DecidableEq ι] in
/-- The labels of a tree are a list of this kind. -/
theorem ParentsFirst.of_sublist (h : t.labels.Sublist order) : ParentsFirst order t := by
  induction t using childInduction with
  | h t ih =>
    have hlabels := h
    rw [labels_eq] at hlabels
    refine ⟨fun j hj => ?_, fun c hc => ih c hc (List.Sublist.trans ?_ ((List.sublist_cons_self _ _).trans hlabels))⟩
    · exact (List.Sublist.cons_cons _ (List.singleton_sublist.mpr hj)).trans hlabels
    · obtain ⟨before, after, hsplit⟩ := List.append_of_mem hc
      rw [hsplit, List.flatMap_append, List.flatMap_cons]
      exact (List.sublist_append_left _ _).trans (List.sublist_append_right _ _)

omit [DecidableEq ι] in
theorem ParentsFirst.rightsLater (h : ParentsFirst order t) : RightsLater order t := by
  induction h with
  | @intro t hroot hchildren ih =>
    cases t with
    | binary l op a b =>
      refine .binary (ih a List.mem_cons_self) (hchildren b (List.mem_cons_of_mem _ List.mem_cons_self)) fun j hj => ?_
      exact hroot j (by simp [Tree.children, hj])
    | _ => exact .other rfl ih

theorem pair_sublist_erase {i j l : ι} (h : [i, j].Sublist order) (hi : i ≠ l) (hj : j ≠ l) :
    [i, j].Sublist (order.erase l) := by
  have herase := h.erase l
  rwa [List.erase_of_not_mem (by simp [hi.symm, hj.symm])] at herase

theorem ParentsFirst.erase {l : ι} (h : ParentsFirst order t) (hl : l ∉ t.labels) : ParentsFirst (order.erase l) t := by
  induction h with
  | @intro t hroot hchildren ih =>
    rw [labels_eq, List.mem_cons, not_or] at hl
    refine ⟨fun j hj => pair_sublist_erase (hroot j hj) (fun h => hl.1 h.symm) fun h => hl.2 (h ▸ hj), fun c hc => ?_⟩
    exact ih c hc fun h => hl.2 (List.mem_flatMap.mpr ⟨c, hc, h⟩)

theorem RightsLater.erase {l : ι} (h : RightsLater order t) (hl : l ∉ t.labels) : RightsLater (order.erase l) t := by
  induction h with
  | @binary k op a b hleft hright hroot ih =>
    rw [labels_binary, List.mem_cons, List.mem_append, not_or, not_or] at hl
    refine .binary (ih hl.2.1) (hright.erase hl.2.2) fun j hj => ?_
    exact pair_sublist_erase (hroot j hj) (fun h => hl.1 h.symm) fun h => hl.2.2 (h ▸ hj)
  | @other t hop hchildren ih =>
    rw [labels_eq, List.mem_cons, not_or] at hl
    exact .other hop fun c hc => ih c hc fun h => hl.2 (List.mem_flatMap.mpr ⟨c, hc, h⟩)

omit [DecidableEq ι] in
theorem parentsFirst_binary {l : ι} {op : BinaryOp} {a b : Tree ι α} (h : ParentsFirst order (.binary l op a b)) :
    ParentsFirst order a ∧ ParentsFirst order b ∧ (∀ j ∈ a.labels, [l, j].Sublist order) ∧
      ∀ j ∈ b.labels, [l, j].Sublist order := by
  obtain ⟨hroot, hchildren⟩ := h
  refine ⟨hchildren a List.mem_cons_self, hchildren b (List.mem_cons_of_mem _ List.mem_cons_self), fun j hj => ?_,
    fun j hj => ?_⟩
  · exact hroot j (by simp [Tree.children, hj])
  · exact hroot j (by simp [Tree.children, hj])

omit [DecidableEq ι] in
/-- **After its turns** a node has right operands that come later. -/
theorem rightsLater_turnAll (outer : BinaryOp) {a b : Tree ι α} (ha : RightsLater order a) (hb : ParentsFirst order b) :
    RightsLater order (turnAll outer a b).left ∧ RightsLater order (turnAll outer a b).right := by
  fun_induction turnAll outer a b with
  | case1 outer a l inner b c o i h r ih =>
    obtain ⟨hb, hc, hlb, -⟩ := parentsFirst_binary hb
    exact ih (.binary ha hb hlb) hc
  | case2 outer a l inner b c o i h r ih =>
    obtain ⟨hb, hc, -, hlc⟩ := parentsFirst_binary hb
    exact ih (.binary ha hc hlc) hb
  | case3 outer a l inner b c o i h =>
    obtain ⟨hb, hc, -, hlc⟩ := parentsFirst_binary hb
    exact ⟨.binary hb.rightsLater hc hlc, ha⟩
  | case4 outer a l inner b c o i h =>
    obtain ⟨hb, hc, hlb, -⟩ := parentsFirst_binary hb
    exact ⟨.binary hc.rightsLater hb hlb, ha⟩
  | _ => exact ⟨ha, hb.rightsLater⟩

omit [DecidableEq ι] in
/-- What comes later in a list without repetitions does not come earlier. -/
theorem mem_later {before after : List ι} {l j : ι} (hnodup : (before ++ l :: after).Nodup)
    (h : [l, j].Sublist (before ++ l :: after)) : j ∉ before := by
  have hl : l ∉ before := fun hl => (List.nodup_append.mp hnodup).2.2 l hl l List.mem_cons_self rfl
  obtain ⟨xs, ys, hsplit, hxs, hys⟩ := List.sublist_append_iff.mp h
  cases xs with
  | cons x xs =>
    rw [List.cons_append, List.cons.injEq] at hsplit
    exact absurd (hxs.subset (hsplit.1 ▸ List.mem_cons_self)) hl
  | nil =>
    rw [List.nil_append] at hsplit
    subst hsplit
    have hj : j ∈ l :: after := hys.subset (List.mem_cons_of_mem _ List.mem_cons_self)
    exact fun hjb => (List.nodup_append.mp hnodup).2.2 j hjb j hj rfl

end Order

/-! ## Running the turns -/

theorem runTurns_leaf {t : Tree ι α} (order : List ι) (h : ∀ i, turnAt i t = (t, 0)) : runTurns order t = (t, 0) := by
  induction order with
  | nil => rfl
  | cons i rest ih => rw [runTurns, h i, ih, Nat.zero_add]

theorem runTurns_negate (order : List ι) (l : ι) (t : Tree ι α) :
    runTurns order (.negate l t) = (.negate l (runTurns order t).1, (runTurns order t).2) := by
  induction order generalizing t with
  | nil => rfl
  | cons i rest ih => rw [runTurns, turnAt, ih, runTurns]

theorem runTurnsAll_nil (ts : List (Tree ι α)) : runTurnsAll [] ts = (ts, 0) := by
  induction ts with
  | nil => rfl
  | cons t ts ih => rw [runTurnsAll, ih, runTurns, Nat.zero_add]

theorem runTurnsAll_cons (i : ι) (rest : List ι) (ts : List (Tree ι α)) : runTurnsAll (i :: rest) ts =
    ((runTurnsAll rest (turnAtAll i ts).1).1, (turnAtAll i ts).2 + (runTurnsAll rest (turnAtAll i ts).1).2) := by
  induction ts with
  | nil => rfl
  | cons t ts ih =>
    rw [runTurnsAll, ih, runTurns, turnAtAll, runTurnsAll, Nat.add_add_add_comm]

theorem runTurns_list (order : List ι) (l : ι) (ts : List (Tree ι α)) :
    runTurns order (.list l ts) = (.list l (runTurnsAll order ts).1, (runTurnsAll order ts).2) := by
  induction order generalizing ts with
  | nil => rw [runTurnsAll_nil, runTurns]
  | cons i rest ih => rw [runTurns, turnAt, ih, runTurnsAll_cons]

/-- Without the label of the root, the turns of the two operands are independent. -/
theorem runTurns_binary {order : List ι} {l : ι} (hl : l ∉ order) (op : BinaryOp) (a b : Tree ι α) :
    runTurns order (.binary l op a b) = (.binary l op (runTurns order a).1 (runTurns order b).1,
      (runTurns order a).2 + (runTurns order b).2) := by
  induction order generalizing a b with
  | nil => rfl
  | cons i rest ih =>
    rw [List.mem_cons, not_or] at hl
    rw [runTurns, turnAt, if_neg hl.1, ih hl.2, runTurns, runTurns, Nat.add_add_add_comm]

/-- Labels of the left operand that come before the root may as well come after it. -/
theorem runTurns_early {before after : List ι} {l : ι} (op : BinaryOp) (a b : Tree ι α) (hl : l ∉ before)
    (hb : ∀ i ∈ before, i ∉ b.labels) :
    runTurns (before ++ l :: after) (.binary l op a b) = runTurns (l :: (before ++ after)) (.binary l op a b) := by
  induction before generalizing a with
  | nil => rfl
  | cons i before ih =>
    rw [List.mem_cons, not_or] at hl
    obtain ⟨hturn, hcount⟩ := turnAll_turnAt op a (hb i List.mem_cons_self)
    have hib : turnAt i b = (b, 0) := turnAt_of_not_mem (hb i List.mem_cons_self)
    rw [List.cons_append, runTurns, turnAt, if_neg hl.1, hib, ih _ hl.2 fun j hj => hb j (List.mem_cons_of_mem _ hj),
      runTurns, turnAt, if_pos rfl, hturn, runTurns, turnAt, if_pos rfl, List.cons_append, runTurns, turnAt,
      if_neg hl.1, ← hcount]
    ext
    · rfl
    · simp only
      omega

/-- **The turns at an operator move to the front**: what comes before it is in its left operand. -/
theorem runTurns_root {order : List ι} {l : ι} {op : BinaryOp} {a b : Tree ι α} (horder : order.Nodup) (hl : l ∈ order)
    (hroot : ∀ j ∈ b.labels, [l, j].Sublist order) :
    runTurns order (.binary l op a b) = (.binary l (turnAll op a b).op
      (runTurns (order.erase l) (turnAll op a b).left).1 (runTurns (order.erase l) (turnAll op a b).right).1,
      (turnAll op a b).turns + ((runTurns (order.erase l) (turnAll op a b).left).2 +
        (runTurns (order.erase l) (turnAll op a b).right).2)) := by
  obtain ⟨before, after, rfl⟩ := List.append_of_mem hl
  have hlater : l ∉ before ++ after := (List.nodup_cons.mp (List.nodup_middle.mp horder)).1
  have hbefore : l ∉ before := fun h => hlater (List.mem_append_left _ h)
  have herase : (before ++ l :: after).erase l = before ++ after := by
    rw [List.erase_append_right _ hbefore, List.erase_cons_head]
  rw [herase, runTurns_early op a b hbefore fun i hi hib => mem_later horder (hroot i hib) hi, runTurns, turnAt,
    if_pos rfl, runTurns_binary hlater]

theorem runTurnsAll_eq {order : List ι} {ts : List (Tree ι α)} (h : ∀ t ∈ ts, runTurns order t = sweep t) :
    runTurnsAll order ts = sweepAll ts := by
  induction ts with
  | nil => rw [runTurnsAll, sweepAll]
  | cons t ts ih =>
    rw [runTurnsAll, sweepAll, h t List.mem_cons_self, ih fun u hu => h u (List.mem_cons_of_mem _ hu)]

/-- **The turns at the nodes of a list** that was made before the first turn are those of a sweep. -/
theorem runTurns_eq_sweep (t : Tree ι α) {order : List ι} (horder : order.Nodup) (ht : t.labels.Nodup)
    (hsub : t.labels ⊆ order) (hlater : RightsLater order t) : runTurns order t = sweep t := by
  induction hn : t.size using Nat.strong_induction_on generalizing t order with
  | _ n ih =>
    subst hn
    -- Below a node that is no operator the list stays as it is.
    have hother : t.op? = none → ∀ c ∈ t.children, runTurns order c = sweep c := by
      intro hop c hc
      have hchild : RightsLater order c := by
        cases hlater with
        | binary => cases hop
        | other _ h => exact h c hc
      rw [labels_eq] at ht hsub
      have hlabels := (List.nodup_flatMap.mp (List.nodup_cons.mp ht).2).1 c hc
      exact ih c.size (size_lt_of_mem_children hc) c horder hlabels
        (fun i hi => hsub (List.mem_cons_of_mem _ (List.mem_flatMap.mpr ⟨c, hc, hi⟩))) hchild rfl
    cases t with
    | literal | var | infinity =>
      rw [sweep]
      exact runTurns_leaf order fun _ => rfl
    | negate l t => rw [runTurns_negate, sweep, hother rfl t List.mem_cons_self]
    | list l items =>
      have hitems : ∀ t ∈ items, runTurns order t = sweep t := hother rfl
      rw [runTurns_list, sweep, runTurnsAll_eq hitems]
    | binary l op a b =>
      cases hlater with
      | other hop => cases hop
      | binary hleft hright hroot =>
        rw [labels_binary, List.nodup_cons] at ht
        rw [labels_binary] at hsub
        have hperm := labels_turnAll op a b
        have hlabels := List.nodup_append.mp (hperm.nodup_iff.mpr ht.2)
        have hsize := size_turnAll op a b
        obtain ⟨hl, hr⟩ := rightsLater_turnAll op hleft hright
        have hne : ∀ i ∈ (turnAll op a b).left.labels ++ (turnAll op a b).right.labels, i ≠ l := fun i hi h =>
          ht.1 (h ▸ hperm.mem_iff.mp hi)
        have hmem : ∀ i ∈ (turnAll op a b).left.labels ++ (turnAll op a b).right.labels, i ∈ order.erase l :=
          fun i hi => (List.mem_erase_of_ne (hne i hi)).mpr (hsub (List.mem_cons_of_mem _ (hperm.mem_iff.mp hi)))
        have hrunl := ih _ (by simp only [Tree.size]; omega) (turnAll op a b).left (horder.erase l) hlabels.1
          (fun i hi => hmem i (List.mem_append_left _ hi)) (hl.erase fun h => hne l (List.mem_append_left _ h) rfl) rfl
        have hrunr := ih _ (by simp only [Tree.size]; omega) (turnAll op a b).right (horder.erase l) hlabels.2.1
          (fun i hi => hmem i (List.mem_append_right _ hi)) (hr.erase fun h => hne l (List.mem_append_right _ h) rfl)
          rfl
        rw [runTurns_root horder (hsub List.mem_cons_self) hroot, hrunl, hrunr, sweep]
        exact congrArg (Prod.mk _) (Nat.add_assoc ..).symm

end SignalFlow.Rewrite
