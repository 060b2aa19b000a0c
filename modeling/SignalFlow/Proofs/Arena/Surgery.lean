import SignalFlow.Proofs.Arena.Copy
import SignalFlow.Proofs.Arena.Forest

/-!
# Surgery at a hole

Relinking changes the label around a hole (`relink_does`), and all surgery is relinking, freeing, copying and
overwriting the node in the hole. Each operation has a rule for the case that it succeeds, which says what fills the
hole before and after.
-/

namespace SignalFlow

variable {α : Type}

namespace Arena

open SignalFlow.Tree

variable {s : Slots} {r : Id} {q : Option Id} {C : Multiset (Id × Cell α)} {l : Layout α} {h : Hole Id α}
  {t u : Tree Id α}

/-! ## Relinking -/

/-- The handle of a cell is no label of other trees that sit there. -/
theorem not_mem_labels_of_whole {i : Id} {c : Cell α} {p : Option Id} {ts : List (Tree Id α)}
    (hwhole : Layout.Whole ⟨s, r, {(i, c)} + C⟩) (hts : cellsAll p ts ≤ C) : i ∉ ts.flatMap labels := by
  intro hi
  rw [← Multiset.mem_coe, ← keys_cellsAll p ts] at hi
  obtain ⟨⟨j, d⟩, hd, rfl⟩ := Multiset.mem_map.mp hi
  exact hwhole.absent d (Multiset.mem_of_le hts hd)

/-- At the root of a tree, the first root is redirected if it is the one that is replaced. -/
theorem redirect_root_does (old new : Id) (before after : List (Tree Id α)) {n : Node α} :
    Does (Step.write fun a : Arena α => if a.root = old then { a with root := new } else a)
      ⟨s, Hole.root ⟨[], before, after⟩ old, {(old, ⟨n, none⟩)} + (Hole.around ⟨[], before, after⟩ old + C)⟩ (.ok ())
      ⟨s, Hole.root ⟨[], before, after⟩ new, {(old, ⟨n, none⟩)} + (Hole.around ⟨[], before, after⟩ old + C)⟩ := by
  refine Does.write fun a hs => ?_
  have hroot : a.root = Hole.root ⟨[], before, after⟩ old := hs.root
  cases before with
  | nil =>
    have hold : a.root = old := hroot
    rw [if_pos hold]
    exact ⟨hs.whole, hs.free, hs.size, rfl, hs.slot⟩
  | cons b bs =>
    have hcells : cellsAll none (b :: bs ++ after) ≤ Hole.around ⟨[], b :: bs, after⟩ old + C :=
      (Multiset.le_add_left _ _).trans (Multiset.le_add_right _ _)
    have hold : old ∉ (b :: bs ++ after).flatMap labels := not_mem_labels_of_whole hs.whole hcells
    have hother : a.root ≠ old := by
      intro heq
      have hb : old = b.label := heq.symm.trans hroot
      exact hold (List.mem_flatMap.mpr ⟨b, List.mem_append_left _ List.mem_cons_self, hb ▸ b.label_mem_labels⟩)
    rw [if_neg hother]
    exact ⟨hs.whole, hs.free, hs.size, hroot, hs.slot⟩

/-- Below a node, the node is redirected. -/
theorem redirect_does (old new : Id) (f : Frame Id α) (p : Option Id) {c : Cell α} :
    Does (setNode f.label ((f.node old).retarget old new)) ⟨s, r, {(old, c)} + (f.around p old + C)⟩ (.ok ())
      ⟨s, r, {(old, c)} + (f.around p new + C)⟩ := by
  intro a hs
  have hsiblings : ∀ t ∈ f.siblings, t.label ≠ old := by
    rintro t ht rfl
    have hmem : t.label ∈ f.siblings.flatMap labels := List.mem_flatMap.mpr ⟨t, ht, t.label_mem_labels⟩
    have hcells : cellsAll (some f.label) f.siblings ≤ f.around p t.label + C :=
      (Multiset.le_add_left _ _).trans (Multiset.le_add_right _ _)
    exact not_mem_labels_of_whole hs.whole hcells hmem
  have hset := setNode_does (s := s) (r := r) (i := f.label) (c := ⟨f.node old, p⟩)
    (C := {(old, c)} + (cellsAll (some f.label) f.siblings + C)) (f.node new)
  rw [f.retarget_node new hsiblings]
  refine hset.of_eq ?_ ?_ a hs
  · rw [Frame.around]
    abel
  · rw [Frame.around]
    abel

/-- **Relinking** puts a tree in the place of a node, of which only the cell is looked at. -/
theorem relink_does (old : Id) {n : Node α} :
    Does (relink old u.label) ⟨s, h.root old, {(old, ⟨n, h.parent?⟩)} + (h.around old + (u.cells q + C))⟩ (.ok ())
      ⟨s, h.root u.label, {(old, ⟨n, none⟩)} + (h.around u.label + (u.cells h.parent? + C))⟩ := by
  refine Does.bind (b := h.parent?) (Does.look fun a hs => ?_) ?_
  · rw [hs.parent? (Multiset.mem_add.mpr (.inl (Multiset.mem_singleton_self _)))]
  -- what is put in the place takes over the parent that the node loses
  have hparents : ∀ p : Option Id, Does (do setParent old none; setParent u.label p)
      ⟨s, h.root u.label, {(old, ⟨n, h.parent?⟩)} + (h.around u.label + (u.cells q + C))⟩ (.ok ())
      ⟨s, h.root u.label, {(old, ⟨n, none⟩)} + (h.around u.label + (u.cells p + C))⟩ := by
    intro p
    refine (setParent_does none).bind ?_
    have hnew := setParent_tree (s := s) (r := h.root u.label) (C := {(old, ⟨n, none⟩)} + (h.around u.label + C))
      u q p
    exact hnew.of_eq (by abel) (by abel)
  obtain ⟨frames, before, after⟩ := h
  cases frames with
  | nil => exact (redirect_root_does old u.label before after).bind (hparents none)
  | cons f fs =>
    let h : Hole Id α := ⟨fs, before, after⟩
    have hroot : ∀ k, Hole.root ⟨f :: fs, before, after⟩ k = h.root f.label := h.root_push f
    have haround : ∀ k, Hole.around ⟨f :: fs, before, after⟩ k = f.around h.parent? k + h.around f.label :=
      h.around_push f
    have hp : Hole.parent? ⟨f :: fs, before, after⟩ = some f.label := rfl
    have hparent := hparents (some f.label)
    rw [hroot, haround, hp] at hparent ⊢
    rw [hroot, haround]
    have hredirect := redirect_does (s := s) (r := h.root f.label) (c := ⟨n, some f.label⟩)
      (C := h.around f.label + (u.cells q + C)) old u.label f h.parent?
    rw [← add_assoc (f.around _ _), ← add_assoc (f.around _ _)] at hredirect
    exact (nodeAt_does (c := ⟨f.node old, h.parent?⟩) (by simp [Frame.around])).bind (hredirect.bind hparent)

/-! ## Operations in a hole -/

theorem checkLive_does (ht : l.Sits t) : Does (checkLive t.label) l (.ok ()) l :=
  (Does.look (b := some t.shape) fun a ha => by rw [ha.node_tree ht]).bind (Does.pure ())

theorem checkLive_dead {i : Id} (hi : ∀ c, (i, c) ∉ l.cells) :
    Does (checkLive i) l (.error (.invalidNode (.notLive i))) l :=
  (Does.look (b := none) fun a ha => by rw [node?, ha.slot?_eq_none hi, Option.map_none]).bind (Does.throw _)

theorem parentAt_does {i p : Id} {n : Node α} (hi : (i, ⟨n, some p⟩) ∈ l.cells) : Does (parentAt i) l (.ok p) l :=
  (Does.look (b := some p) fun a ha => by rw [ha.parent? hi]).bind (Does.pure p)

theorem parentAt_none {i : Id} {n : Node α} (hi : (i, ⟨n, none⟩) ∈ l.cells) :
    Does (parentAt i) l (.error .noParent) l :=
  (Does.look (b := none) fun a ha => by rw [ha.parent? hi]).bind (Does.throw _)

/-- The root of what fills a hole has its cell. -/
theorem Hole.mem_layout (h : Hole Id α) (s : Slots) (t : Tree Id α) :
    (t.label, ⟨t.shape, h.parent?⟩) ∈ (h.layout s t).cells := by
  rw [Hole.layout, cells_eq]
  simp

/-- The node above a hole has its cell. -/
theorem Hole.mem_layout_push (h : Hole Id α) (f : Frame Id α) (s : Slots) (t : Tree Id α) :
    (f.label, ⟨f.node t.label, h.parent?⟩) ∈ ((h.push f).layout s t).cells := by
  rw [Hole.layout_push, ← f.label_fill t, ← f.shape_fill t]
  exact Hole.mem_layout h s _

theorem morph_does (h : Hole Id α) (s : Slots) (t : Tree Id α) (v : α) :
    Does (morph t.label v) (h.layout s t) (.ok ())
      (h.layout (s.release (t.children.flatMap discard)) (.literal t.label v)) := by
  refine (checkLive_does (h.sits s t)).bind ((nodeAt_tree (h.sits s t)).bind ?_)
  have hfree := freeTrees_does (s := s) (r := h.root t.label)
    (C := {(t.label, ⟨t.shape, h.parent?⟩)} + h.around t.label) t.children (some t.label)
  rw [children_shape]
  refine (hfree.of_eq ?_ rfl).bind (setNode_does _)
  rw [cells_eq]
  abel

/-- Changing a binary node whose operands stay its operands. -/
theorem setBinary_does (h : Hole Id α) (s : Slots) (l : Id) {op op' : BinaryOp} {a b a' b' : Tree Id α}
    (hcells : a.cells (some l) + b.cells (some l) = a'.cells (some l) + b'.cells (some l)) :
    Does (setNode l (.binary op' a'.label b'.label)) (h.layout s (.binary l op a b)) (.ok ())
      (h.layout s (.binary l op' a' b')) := by
  have hset := setNode_does (s := s) (r := h.root l) (i := l) (c := ⟨.binary op a.label b.label, h.parent?⟩)
    (C := a.cells (some l) + b.cells (some l) + h.around l) (.binary op' a'.label b'.label)
  refine hset.of_eq (add_assoc ..) ?_
  rw [hcells]
  exact add_assoc ..

theorem swap_does (h : Hole Id α) (s : Slots) (l : Id) (op : BinaryOp) (a b : Tree Id α) :
    Does (swap l) (h.layout s (.binary l op a b)) (.ok ()) (h.layout s (.binary l op b a)) := by
  refine (checkLive_does (h.sits s (.binary l op a b))).bind ?_
  refine (nodeAt_tree (h.sits s (.binary l op a b))).bind ?_
  exact setBinary_does h s l (add_comm ..)

theorem setOp_does (h : Hole Id α) (s : Slots) (l : Id) (op op' : BinaryOp) (a b : Tree Id α) :
    Does (setOp l op') (h.layout s (.binary l op a b)) (.ok ()) (h.layout s (.binary l op' a b)) := by
  refine (checkLive_does (h.sits s (.binary l op a b))).bind ?_
  refine (nodeAt_tree (h.sits s (.binary l op a b))).bind ?_
  exact setBinary_does h s l rfl

/-- The layout of a copy of a tree. -/
theorem layout_ofTree {ι : Type} (t : Tree ι α) :
    (Expr.ofTree t).layout = ⟨(t.place {}).2, (t.place {}).1.label, (t.place {}).1.cells none⟩ := by
  change (⟨_, _, (t.place {}).1.cells none + 0⟩ : Layout α) = _
  rw [add_zero]
  rfl

/-- A tree that is planted in an arena of its own. -/
theorem build_plant (t : Term α) : ∃ a, build (plant t) = .ok a ∧ Shows a (Expr.ofTree t).layout := by
  have hplant := plant_does (r := ⟨0⟩) (C := 0) t (s := {})
  rw [add_zero] at hplant
  rw [layout_ofTree]
  exact build_shows hplant

/-- **A copy of a tree that sits there**, in an arena of its own. -/
theorem subtree_shows {a : Arena α} (ha : Shows a l) (ht : l.Sits t) :
    ∃ b, a.subtree t.label = .ok b ∧ Shows b (Expr.ofTree t).layout := by
  have hcopy := copyFrom_does (s := {}) (r := ⟨0⟩) (C := 0) ha ht
  rw [add_zero] at hcopy
  rw [layout_ofTree]
  exact build_shows hcopy

theorem whole_ofTree_of_sits {a : Arena α} (ha : Shows a l) (ht : l.Sits t) : (Expr.ofTree t).Whole := by
  obtain ⟨b, -, hb⟩ := subtree_shows ha ht
  exact hb.whole

theorem subtree_eq {a : Arena α} (ha : Shows a l) (ht : l.Sits t) : a.subtree t.label = .ok (Expr.ofTree t).arena := by
  obtain ⟨b, hsubtree, hb⟩ := subtree_shows ha ht
  rw [hsubtree, Expr.eq_arena hb.whole hb]

theorem replace_does (h : Hole Id α) (s : Slots) (t : Tree Id α) {b : Arena α} {k : Layout α} (hb : Shows b k)
    (hroot : b.root = u.label) (hu : k.Sits u) :
    Does (replace t.label b) (h.layout s t) (.ok (Expr.ofTree t).arena)
      (h.layout ((u.place s).2.release t.discard) (u.place s).1) := by
  refine (checkLive_does (h.sits s t)).bind ?_
  refine (Does.look fun a ha => subtree_eq ha (h.sits s t)).bind ?_
  rw [graft, hroot]
  refine (copyFrom_does hb hu).bind ?_
  have hrelink := relink_does t.label (s := (u.place s).2) (h := h) (n := t.shape) (u := (u.place s).1)
    (q := none) (C := cellsAll (some t.label) t.children)
  refine (hrelink.of_eq ?_ rfl).bind ?_
  · rw [cells_eq _ t]
    abel
  · refine Does.bind (Does.of_eq (freeTree_does t none) ?_ rfl) (Does.pure _)
    rw [cells_eq _ t, add_comm ((u.place s).1.cells _)]
    abel

/-! ### Operands -/

/-- The layout around an operand, cell by cell. -/
theorem Hole.layout_operand (h : Hole Id α) (f : Frame Id α) (s : Slots) (t : Tree Id α) :
    (h.push f).layout s t = ⟨s, h.root f.label, {(f.label, ⟨f.node t.label, h.parent?⟩)} + (h.around f.label +
      (t.cells (some f.label) + cellsAll (some f.label) f.siblings))⟩ := by
  rw [Hole.layout, Hole.root_push, Hole.around_push, Frame.around, Hole.parent?_push]
  congr 1
  abel

/-- The label of an operand is not that of the node above, and none of its siblings. -/
theorem operand_labels {f : Frame Id α} (hwhole : ((h.push f).layout s t).Whole) :
    f.label ≠ t.label ∧ t.label ∉ f.siblings.flatMap labels := by
  rw [Hole.layout_operand] at hwhole
  constructor
  · have hroot : f.label ∉ [t].flatMap labels := by
      refine not_mem_labels_of_whole hwhole (p := some f.label) (le_trans ?_ (Multiset.le_add_left _ _))
      rw [cellsAll, cellsAll, add_zero]
      exact Multiset.le_add_right _ _
    rw [List.flatMap_singleton] at hroot
    exact fun heq => hroot (heq ▸ t.label_mem_labels)
  · have hfirst : {(f.label, ⟨f.node t.label, h.parent?⟩)} + (h.around f.label + (t.cells (some f.label) +
        cellsAll (some f.label) f.siblings)) = {(t.label, ⟨t.shape, some f.label⟩)} +
        (cellsAll (some f.label) f.siblings + ({(f.label, ⟨f.node t.label, h.parent?⟩)} + (h.around f.label +
          cellsAll (some t.label) t.children))) := by
      rw [cells_eq]
      abel
    rw [hfirst] at hwhole
    exact not_mem_labels_of_whole hwhole (Multiset.le_add_right _ _)

theorem collapse_does (h : Hole Id α) (f : Frame Id α) (s : Slots) (t : Tree Id α) :
    Does (collapse t.label) (h.layout s (f.fill t)) (.ok ())
      (h.layout (s.release (f.label :: f.siblings.reverse.flatMap discard)) t) := by
  rw [← h.layout_push]
  refine Does.of_whole fun hwhole => ?_
  obtain ⟨hroot, hothers⟩ := operand_labels hwhole
  refine (checkLive_does ((h.push f).sits s t)).bind ?_
  refine (parentAt_does (Hole.mem_layout (h.push f) s t)).bind ?_
  rw [Hole.layout_operand]
  refine (relink_does _).bind ?_
  have hfree := freeExcept_does (s := s) (r := h.root t.label) (p := none) (q := h.parent?) (C := h.around t.label)
    (f.children_fill t) (by rwa [f.label_fill]) hothers
  rw [f.label_fill, f.shape_fill] at hfree
  refine hfree.of_eq ?_ rfl
  rw [Frame.siblings]
  abel

/-- The items of a list without one of them. -/
theorem filter_labels {before after : List (Tree Id α)} (ht : t.label ∉ (before ++ after).flatMap labels) :
    (before.map label ++ t.label :: after.map label).filter (· ≠ t.label) = (before ++ after).map label := by
  have hall : ∀ ts : List (Tree Id α), (∀ c ∈ ts, c ∈ before ++ after) →
      (ts.map label).filter (· ≠ t.label) = ts.map label := by
    intro ts hts
    refine List.filter_eq_self.mpr fun i hi => ?_
    obtain ⟨c, hc, rfl⟩ := List.mem_map.mp hi
    refine decide_eq_true fun heq => ht ?_
    exact List.mem_flatMap.mpr ⟨c, hts c hc, heq ▸ c.label_mem_labels⟩
  rw [List.filter_append, List.filter_cons_of_neg (by simp), hall before fun c hc => List.mem_append_left _ hc,
    hall after fun c hc => List.mem_append_right _ hc, List.map_append]

theorem unlink_does (h : Hole Id α) (s : Slots) (l : Id) (before after : List (Tree Id α)) (t : Tree Id α) :
    Does (unlink t.label) (h.layout s (.list l (before ++ t :: after))) (.ok (Expr.ofTree t).arena)
      (h.layout (s.release t.discard) (.list l (before ++ after))) := by
  change Does _ (h.layout s ((Frame.item l before after).fill t)) _ _
  rw [← h.layout_push]
  refine Does.of_whole fun hwhole => ?_
  have hothers : t.label ∉ (before ++ after).flatMap labels := (operand_labels hwhole).2
  refine (checkLive_does ((h.push _).sits s t)).bind ?_
  refine (parentAt_does (Hole.mem_layout (h.push (.item l before after)) s t)).bind ?_
  refine (nodeAt_does (Hole.mem_layout_push h (.item l before after) s t)).bind ?_
  rw [Hole.layout_operand]
  have hset := setNode_does (s := s) (r := h.root l) (i := l) (C := h.around l + (t.cells (some l) +
    cellsAll (some l) (before ++ after))) (c := ⟨.list (before.map label ++ t.label :: after.map label), h.parent?⟩)
    (.list ((before.map label ++ t.label :: after.map label).filter (· ≠ t.label)))
  have hunset := setParent_tree (s := s) (r := h.root l) (C := (Tree.list l (before ++ after)).cells h.parent? +
    h.around l) t (some l) none
  refine hset.bind (Does.bind (Does.of_eq hunset ?_ rfl) ?_)
  · rw [filter_labels hothers, cells]
    abel
  · refine (Does.look fun a ha => subtree_eq ha (Layout.Sits.of_add t none)).bind ?_
    exact (freeTree_does t none).bind (Does.pure _)

/-! ## Refusals -/

/-- Only an item can be unlinked. -/
theorem unlink_fixed (h : Hole Id α) (f : Frame Id α) (hf : ∀ l before after, f ≠ .item l before after) (s : Slots)
    (t : Tree Id α) :
    Does (unlink t.label) (h.layout s (f.fill t)) (.error .fixedArityParent) (h.layout s (f.fill t)) := by
  rw [← h.layout_push]
  refine (checkLive_does ((h.push f).sits s t)).bind ((parentAt_does (Hole.mem_layout (h.push f) s t)).bind ?_)
  refine (nodeAt_does (Hole.mem_layout_push h f s t)).bind ?_
  cases f with
  | item l before after => exact absurd rfl (hf l before after)
  | _ => exact Does.bind_error (Does.throw _)

theorem unlink_root (h : Hole Id α) (hframes : h.frames = []) (s : Slots) (t : Tree Id α) :
    Does (unlink t.label) (h.layout s t) (.error .noParent) (h.layout s t) := by
  have hmem := Hole.mem_layout h s t
  rw [Hole.parent?, hframes] at hmem
  exact (checkLive_does (h.sits s t)).bind (Does.bind_error (parentAt_none hmem))

theorem collapse_root (h : Hole Id α) (hframes : h.frames = []) (s : Slots) (t : Tree Id α) :
    Does (collapse t.label) (h.layout s t) (.error .noParent) (h.layout s t) := by
  have hmem := Hole.mem_layout h s t
  rw [Hole.parent?, hframes] at hmem
  exact (checkLive_does (h.sits s t)).bind (Does.bind_error (parentAt_none hmem))

end Arena

end SignalFlow
