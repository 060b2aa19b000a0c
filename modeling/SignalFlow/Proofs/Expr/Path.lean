import SignalFlow.Proofs.Expr.Hole
import SignalFlow.Proofs.Expr.Regular

/-!
# Places in a tree

A path goes from the root of a tree to a node, by numbers of operands. `at?` is the subtree at a path and `modifyAt`
changes it. Where labels are distinct, a change at the label of a node is the change at its path (`update_at`), and a
change does not reach the nodes above which the label is not (`mem_preorder_update`).
-/

namespace SignalFlow

variable {ι κ α : Type}

namespace Tree

/-- **The subtree at a path.** -/
def at? : List Nat → Tree ι α → Option (Tree ι α)
  | [], t => some t
  | k :: ks, t => t.children[k]?.bind (at? ks)

/-- A tree with one operand changed. -/
def mapChild (k : Nat) (f : Tree ι α → Tree ι α) : Tree ι α → Tree ι α
  | .negate l t => .negate l (if k = 0 then f t else t)
  | .binary l op a b => .binary l op (if k = 0 then f a else a) (if k = 1 then f b else b)
  | .list l items => .list l (items.modify k f)
  | t => t

/-- **A tree with the subtree at a path changed.** -/
def modifyAt : List Nat → (Tree ι α → Tree ι α) → Tree ι α → Tree ι α
  | [], f, t => f t
  | k :: ks, f, t => t.mapChild k (modifyAt ks f)

variable {t u w : Tree ι α} {ks : List Nat}

/-- What is below a node below a tree is below the tree. -/
theorem mem_preorder_trans (hu : u ∈ t.preorder) (hw : w ∈ u.preorder) : w ∈ t.preorder := by
  induction t using childInduction with
  | h t ih =>
    rw [preorder_eq] at hu
    rcases List.mem_cons.mp hu with rfl | hu
    · exact hw
    · obtain ⟨c, hc, hu⟩ := List.mem_flatMap.mp hu
      exact mem_preorder_of_mem_children hc (ih c hc hu)

theorem at?_cons_eq_some {k : Nat} : t.at? (k :: ks) = some w ↔ ∃ c, t.children[k]? = some c ∧ c.at? ks = some w :=
  Option.bind_eq_some_iff

theorem mem_preorder_of_at? (h : t.at? ks = some w) : w ∈ t.preorder := by
  induction ks generalizing t with
  | nil =>
    cases h
    exact w.self_mem_preorder
  | cons k ks ih =>
    obtain ⟨c, hc, hw⟩ := at?_cons_eq_some.mp h
    exact mem_preorder_of_mem_children (List.mem_of_getElem? hc) (ih hw)

/-- **Every node of a tree is at a path.** -/
theorem exists_at? (hw : w ∈ t.preorder) : ∃ ks, t.at? ks = some w := by
  induction t using childInduction with
  | h t ih =>
    rw [preorder_eq] at hw
    rcases List.mem_cons.mp hw with rfl | hw
    · exact ⟨[], rfl⟩
    · obtain ⟨c, hc, hw⟩ := List.mem_flatMap.mp hw
      obtain ⟨ks, hks⟩ := ih c hc hw
      obtain ⟨k, hk⟩ := List.getElem?_of_mem hc
      exact ⟨k :: ks, at?_cons_eq_some.mpr ⟨c, hk, hks⟩⟩

/-! ## Frames -/

/-- The operand at a number leaves a frame with as many operands before. -/
theorem exists_frame {c : Tree ι α} {k : Nat} (hc : t.children[k]? = some c) :
    ∃ f : Frame ι α, f.fill c = t ∧ f.before.length = k := by
  obtain ⟨hk, rfl⟩ := List.getElem?_eq_some_iff.mp hc
  cases t with
  | literal | var | infinity => cases hk
  | negate l u =>
    obtain rfl : k = 0 := Nat.lt_one_iff.mp hk
    exact ⟨.negate l, rfl, rfl⟩
  | binary l op a b =>
    match k, hk with
    | 0, _ => exact ⟨.left l op b, rfl, rfl⟩
    | 1, _ => exact ⟨.right l op a, rfl, rfl⟩
  | list l items =>
    refine ⟨.item l (items.take k) (items.drop (k + 1)), ?_, List.length_take_of_le (Nat.le_of_lt hk)⟩
    exact congrArg (Tree.list l) (by simp [children])

theorem mapChild_fill (f : Frame ι α) (g : Tree ι α → Tree ι α) (t : Tree ι α) :
    (f.fill t).mapChild f.before.length g = f.fill (g t) := by
  cases f with
  | item l before after => simp [Frame.fill, Frame.before, mapChild, List.modify_eq_take_cons_drop]
  | _ => rfl

/-! ## Labels -/

/-- The bare tree of a frame has a bare frame. -/
theorem exists_term_frame (f : Frame ι α) :
    ∃ g : Frame Unit α, g.before.length = f.before.length ∧ ∀ t, (f.fill t).term = g.fill t.term := by
  cases f with
  | negate l => exact ⟨.negate (), rfl, fun _ => rfl⟩
  | left l op b => exact ⟨.left () op b.term, rfl, fun _ => rfl⟩
  | right l op a => exact ⟨.right () op a.term, rfl, fun _ => rfl⟩
  | item l before after =>
    refine ⟨.item () (before.map term) (after.map term), List.length_map _, fun t => ?_⟩
    rw [Frame.fill, term, relabel, relabelAll_eq, List.map_append, List.map_cons]
    rfl

theorem term_mapChild {k : Nat} {c : Tree ι α} {f : Tree ι α → Tree ι α} {f' : Term α → Term α}
    (hc : t.children[k]? = some c) (hf : (f c).term = f' c.term) :
    (t.mapChild k f).term = t.term.mapChild k f' := by
  obtain ⟨g, rfl, rfl⟩ := exists_frame hc
  obtain ⟨g', hlength, hg'⟩ := exists_term_frame g
  rw [mapChild_fill, hg', hg', ← hlength, mapChild_fill, hf]

/-- Changing a subtree and changing the bare subtree are the same, if they are for this one. -/
theorem term_modifyAt {f : Tree ι α → Tree ι α} {f' : Term α → Term α} (h : t.at? ks = some w)
    (hf : (f w).term = f' w.term) : (t.modifyAt ks f).term = t.term.modifyAt ks f' := by
  induction ks generalizing t with
  | nil =>
    cases h
    exact hf
  | cons k ks ih =>
    obtain ⟨c, hc, hw⟩ := at?_cons_eq_some.mp h
    exact term_mapChild hc (ih hw)

/-! ## Changes -/

variable [DecidableEq ι]

/-- **A change at a label is the change at the path of its node.** -/
theorem update_at (hnodup : t.labels.Nodup) (h : t.at? ks = some w) (g : Tree ι α → Tree ι α) :
    t.update w.label g = t.modifyAt ks g := by
  induction ks generalizing t with
  | nil =>
    cases h
    exact update_label g w
  | cons k ks ih =>
    obtain ⟨c, hc, hw⟩ := at?_cons_eq_some.mp h
    obtain ⟨f, rfl, rfl⟩ := exists_frame hc
    have hlabels := List.nodup_append.mp ((f.labels_fill c).nodup_iff.mp hnodup)
    have hframe : w.label ∉ f.labels := fun hmem =>
      hlabels.2.2 w.label (List.mem_map_of_mem (mem_preorder_of_at? hw)) w.label hmem rfl
    rw [update_frame hframe, ih hlabels.1 hw, modifyAt, mapChild_fill]

theorem updateAll_eq (i : ι) (g : Tree ι α → Tree ι α) (ts : List (Tree ι α)) :
    updateAll i g ts = ts.map (update i g) := by
  induction ts with
  | nil => rfl
  | cons t ts ih => rw [updateAll, ih, List.map_cons]

/-- A change at another label is a change of the operands. -/
theorem children_update {i : ι} (h : t.label ≠ i) (g : Tree ι α → Tree ι α) :
    (t.update i g).children = t.children.map (update i g) ∧ (t.update i g).label = t.label := by
  cases t with
  | list l items =>
    have hl : l ≠ i := h
    rw [update, if_neg hl]
    exact ⟨updateAll_eq i g items, rfl⟩
  | _ l =>
    have hl : l ≠ i := h
    simp [update, hl, children, label]

/-- Changes keep to the subtrees above the label: a subtree is changed like the tree. -/
theorem mem_preorder_update {i : ι} (g : Tree ι α → Tree ι α) (hu : u ∈ t.preorder)
    (hout : ∀ w ∈ t.preorder, w.label = i → u ∉ w.preorder) : u.update i g ∈ (t.update i g).preorder := by
  induction t using childInduction with
  | h t ih =>
    have hroot : t.label ≠ i := fun h => hout t t.self_mem_preorder h hu
    rw [preorder_eq] at hu
    rcases List.mem_cons.mp hu with rfl | hu
    · exact self_mem_preorder _
    · obtain ⟨c, hc, hu⟩ := List.mem_flatMap.mp hu
      refine mem_preorder_of_mem_children (c := c.update i g) ?_
        (ih c hc hu fun w hw => hout w (mem_preorder_of_mem_children hc hw))
      rw [(children_update hroot g).1]
      exact List.mem_map_of_mem hc

end Tree

end SignalFlow
