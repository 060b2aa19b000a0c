import Mathlib.Data.List.Nodup
import Mathlib.Data.List.Pairwise
import SignalFlow.Expr.Edit
import SignalFlow.Proofs.Expr.Walk

/-!
# Trees with a hole

A `Hole` is a place in a forest: the trees before and after, and, from the inside outwards, the nodes above it
(`Frame`). Filling it with a tree gives a forest, and every node of a forest is the root of what fills some hole
(`exists_fill`).

Where labels are distinct, the views and changes of an expression are those of the hole: the node at the label of what
fills it is found there (`Hole.find?_fill`), with the parent of the hole (`Hole.parentOf?_fill`), and changing it changes
what fills the hole (`update_fill`).
-/

namespace SignalFlow

open SignalFlow.Tree

variable {ι α : Type}

/-! ## Frames -/

/-- **A node with one operand left out.** -/
inductive Frame (ι α : Type) where
  | negate (label : ι)
  | left (label : ι) (op : BinaryOp) (right : Tree ι α)
  | right (label : ι) (op : BinaryOp) (left : Tree ι α)
  | item (label : ι) (before after : List (Tree ι α))

namespace Frame

/-- The node with its operand. -/
def fill : Frame ι α → Tree ι α → Tree ι α
  | .negate l, t => .negate l t
  | .left l op b, t => .binary l op t b
  | .right l op a, t => .binary l op a t
  | .item l before after, t => .list l (before ++ t :: after)

/-- The label of the node. -/
def label : Frame ι α → ι
  | .negate l | .left l _ _ | .right l _ _ | .item l _ _ => l

/-- The operands before the one left out. -/
def before : Frame ι α → List (Tree ι α)
  | .negate _ | .left _ _ _ => []
  | .right _ _ a => [a]
  | .item _ before _ => before

/-- The operands after the one left out. -/
def after : Frame ι α → List (Tree ι α)
  | .negate _ | .right _ _ _ => []
  | .left _ _ b => [b]
  | .item _ _ after => after

/-- The other operands. -/
def siblings (f : Frame ι α) : List (Tree ι α) := f.before ++ f.after

/-- The labels of the node and its other operands. -/
def labels (f : Frame ι α) : List ι := f.label :: f.siblings.flatMap Tree.labels

theorem children_fill (f : Frame ι α) (t : Tree ι α) : (f.fill t).children = f.before ++ t :: f.after := by
  cases f <;> rfl

theorem label_fill (f : Frame ι α) (t : Tree ι α) : (f.fill t).label = f.label := by
  cases f <;> rfl

/-- Every operand of a node leaves a frame. -/
theorem exists_fill {t c : Tree ι α} (hc : c ∈ t.children) : ∃ f : Frame ι α, f.fill c = t := by
  cases t with
  | literal | var | infinity => cases hc
  | negate l u =>
    rw [List.mem_singleton.mp hc]
    exact ⟨.negate l, rfl⟩
  | binary l op a b =>
    rcases List.mem_pair.mp hc with rfl | rfl
    · exact ⟨.left l op b, rfl⟩
    · exact ⟨.right l op a, rfl⟩
  | list l items =>
    obtain ⟨before, after, rfl⟩ := List.append_of_mem hc
    exact ⟨.item l before after, rfl⟩

theorem labels_fill (f : Frame ι α) (t : Tree ι α) : (f.fill t).labels.Perm (t.labels ++ f.labels) := by
  rw [labels_eq, children_fill, label_fill, labels, siblings, List.flatMap_append, List.flatMap_cons,
    List.flatMap_append]
  refine List.Perm.trans ?_ (List.perm_middle.symm)
  refine List.Perm.cons _ ?_
  rw [← List.append_assoc, ← List.append_assoc]
  exact List.Perm.append_right _ List.perm_append_comm

end Frame

/-- A tree in frames, the innermost first. -/
def plug : List (Frame ι α) → Tree ι α → Tree ι α
  | [], t => t
  | f :: fs, t => plug fs (f.fill t)

theorem plug_append (fs gs : List (Frame ι α)) (t : Tree ι α) : plug (fs ++ gs) t = plug gs (plug fs t) := by
  induction fs generalizing t with
  | nil => rfl
  | cons f fs ih => exact ih (f.fill t)

theorem labels_plug (fs : List (Frame ι α)) (t : Tree ι α) :
    (plug fs t).labels.Perm (t.labels ++ fs.flatMap Frame.labels) := by
  induction fs generalizing t with
  | nil => rw [plug, List.flatMap_nil, List.append_nil]
  | cons f fs ih =>
    rw [plug, List.flatMap_cons, ← List.append_assoc]
    exact (ih _).trans (List.Perm.append_right _ (f.labels_fill t))

theorem size_plug (fs : List (Frame ι α)) (t : Tree ι α) :
    (plug fs t).size = t.size + (fs.flatMap Frame.labels).length := by
  rw [← length_labels, (labels_plug fs t).length_eq, List.length_append, length_labels]

/-- Every node of a tree is the root of what is in some frames. -/
theorem exists_plug {t : Tree ι α} {i : ι} (hi : i ∈ t.labels) :
    ∃ (fs : List (Frame ι α)) (u : Tree ι α), plug fs u = t ∧ u.label = i := by
  induction t using childInduction with
  | h t ih =>
    rw [labels_eq] at hi
    rcases List.mem_cons.mp hi with rfl | hi
    · exact ⟨[], t, rfl, rfl⟩
    · obtain ⟨c, hc, hi⟩ := List.mem_flatMap.mp hi
      obtain ⟨fs, u, rfl, hu⟩ := ih c hc hi
      obtain ⟨f, hf⟩ := Frame.exists_fill hc
      exact ⟨fs ++ [f], u, (plug_append fs [f] u).trans hf, hu⟩

/-! ## Holes -/

/-- **A place in a forest.** -/
structure Hole (ι α : Type) where
  /-- The nodes above, the parent first. -/
  frames : List (Frame ι α)
  before : List (Tree ι α)
  after : List (Tree ι α)

namespace Hole

/-- The forest with a tree in its place. -/
def fill (h : Hole ι α) (t : Tree ι α) : List (Tree ι α) := h.before ++ plug h.frames t :: h.after

/-- The place of an operand. -/
def push (h : Hole ι α) (f : Frame ι α) : Hole ι α := { h with frames := f :: h.frames }

/-- The label of the node above. -/
def parent? (h : Hole ι α) : Option ι := h.frames.head?.map Frame.label

/-- The other labels of the forest. -/
def labels (h : Hole ι α) : List ι := h.frames.flatMap Frame.labels ++ (h.before ++ h.after).flatMap Tree.labels

@[simp] theorem parent?_push (h : Hole ι α) (f : Frame ι α) : (h.push f).parent? = some f.label := rfl

/-- The labels of a forest are those inside and those outside of a hole. -/
theorem labels_fill (h : Hole ι α) (t : Tree ι α) : ((h.fill t).flatMap Tree.labels).Perm (t.labels ++ h.labels) := by
  rw [fill, labels, List.flatMap_append, List.flatMap_cons, List.flatMap_append]
  refine List.perm_append_comm_assoc _ _ _ |>.trans ?_
  rw [← List.append_assoc t.labels]
  exact List.Perm.append_right _ (labels_plug h.frames t)

/-- **Every node of a forest fills a hole.** -/
theorem exists_fill {ts : List (Tree ι α)} {i : ι} (hi : i ∈ ts.flatMap Tree.labels) :
    ∃ (h : Hole ι α) (t : Tree ι α), h.fill t = ts ∧ t.label = i := by
  obtain ⟨t, ht, hi⟩ := List.mem_flatMap.mp hi
  obtain ⟨fs, u, rfl, hu⟩ := exists_plug hi
  obtain ⟨before, after, rfl⟩ := List.append_of_mem ht
  exact ⟨⟨fs, before, after⟩, u, rfl, hu⟩

end Hole

/-! ## Distinct labels -/

/-- In a list without repetitions of a key, the first element of a key is the only one. -/
theorem find?_eq_of_nodup {β : Type} {l : List β} {p : β → Bool} {x : β} (hx : x ∈ l) (hp : p x = true)
    (hunique : ∀ y ∈ l, p y = true → y = x) : l.find? p = some x := by
  cases h : l.find? p with
  | none => exact absurd hp (List.find?_eq_none.mp h x hx)
  | some y => rw [hunique y (List.mem_of_find?_eq_some h) (List.find?_some h)]

namespace Tree

theorem self_mem_preorder (t : Tree ι α) : t ∈ t.preorder := by
  rw [preorder_eq]
  exact List.mem_cons_self

/-- What is below an operand is below the node. -/
theorem mem_preorder_of_mem_children {t c u : Tree ι α} (hc : c ∈ t.children) (hu : u ∈ c.preorder) :
    u ∈ t.preorder := by
  rw [preorder_eq]
  exact List.mem_cons_of_mem _ (List.mem_flatMap.mpr ⟨c, hc, hu⟩)

theorem mem_preorder_plug (fs : List (Frame ι α)) {t u : Tree ι α} (hu : u ∈ t.preorder) :
    u ∈ (plug fs t).preorder := by
  induction fs generalizing t with
  | nil => exact hu
  | cons f fs ih =>
    refine ih (mem_preorder_of_mem_children (c := t) ?_ hu)
    rw [f.children_fill]
    exact List.mem_append_right _ List.mem_cons_self

/-- The labels of the nodes below the root. -/
def innerLabels (t : Tree ι α) : List ι := t.preorder.flatMap fun u => u.children.map label

/-- The labels of a tree are that of the root and those of the operands of its nodes. -/
theorem labels_perm_inner (t : Tree ι α) : t.labels.Perm (t.label :: t.innerLabels) := by
  induction t using childInduction with
  | h t ih =>
    rw [labels_eq, innerLabels, preorder_eq, List.flatMap_cons, List.flatMap_assoc]
    refine List.Perm.cons _ ((List.Perm.flatMap_left _ ih).trans ?_)
    rw [← List.flatMap_singleton' (t.children.map label), List.flatMap_map]
    exact (List.flatMap_append_perm t.children (fun c => [c.label]) innerLabels).symm

/-! ## Changing one node -/

variable [DecidableEq ι]

mutual

/-- A change at a label that does not occur changes nothing. -/
theorem update_of_not_mem {i : ι} (g : Tree ι α → Tree ι α) {t : Tree ι α} (hi : i ∉ t.labels) : t.update i g = t := by
  rw [labels_eq, List.mem_cons, not_or] at hi
  match t with
  | .literal l _ | .var l _ | .infinity l => exact if_neg fun h => hi.1 h.symm
  | .negate l t =>
    rw [update, if_neg fun h => hi.1 h.symm, update_of_not_mem g (t := t) (by simpa [children] using hi.2)]
  | .binary l op a b =>
    have hab : i ∉ a.labels ∧ i ∉ b.labels := by simpa [children] using hi.2
    rw [update, if_neg fun h => hi.1 h.symm, update_of_not_mem g hab.1, update_of_not_mem g hab.2]
  | .list l items =>
    have hitems : updateAll i g items = items := updateAll_of_not_mem g hi.2
    rw [update, if_neg fun h => hi.1 h.symm, hitems]

theorem updateAll_of_not_mem {i : ι} (g : Tree ι α → Tree ι α) {ts : List (Tree ι α)}
    (hi : i ∉ ts.flatMap Tree.labels) : updateAll i g ts = ts := by
  match ts with
  | [] => rfl
  | t :: ts =>
    rw [List.flatMap_cons, List.mem_append, not_or] at hi
    rw [updateAll, update_of_not_mem g hi.1, updateAll_of_not_mem g hi.2]

end

theorem updateAll_append (i : ι) (g : Tree ι α → Tree ι α) (ts us : List (Tree ι α)) :
    updateAll i g (ts ++ us) = updateAll i g ts ++ updateAll i g us := by
  induction ts with
  | nil => rfl
  | cons t ts ih => rw [List.cons_append, updateAll, updateAll, ih, List.cons_append]

/-- A change at the root of a tree. -/
theorem update_label (g : Tree ι α → Tree ι α) (t : Tree ι α) : t.update t.label g = g t := by
  cases t <;> exact if_pos rfl

/-- A change that is no concern of a frame. -/
theorem update_frame {f : Frame ι α} {i : ι} (hi : i ∉ f.labels) (g : Tree ι α → Tree ι α) (t : Tree ι α) :
    (f.fill t).update i g = f.fill (t.update i g) := by
  rw [Frame.labels, List.mem_cons, not_or, Frame.siblings, List.flatMap_append, List.mem_append, not_or] at hi
  obtain ⟨hlabel, hbefore, hafter⟩ := hi
  cases f with
  | negate l => exact if_neg fun h => hlabel h.symm
  | left l op b =>
    have hb : i ∉ b.labels := by simpa [Frame.after] using hafter
    rw [Frame.fill, update, if_neg fun h => hlabel h.symm, update_of_not_mem g hb, Frame.fill]
  | right l op a =>
    have ha : i ∉ a.labels := by simpa [Frame.before] using hbefore
    rw [Frame.fill, update, if_neg fun h => hlabel h.symm, update_of_not_mem g ha, Frame.fill]
  | item l before after =>
    have hb : updateAll i g before = before := updateAll_of_not_mem g hbefore
    have ha : updateAll i g after = after := updateAll_of_not_mem g hafter
    rw [Frame.fill, update, if_neg fun h => hlabel h.symm, updateAll_append, updateAll, hb, ha, Frame.fill]

theorem update_plug {fs : List (Frame ι α)} {i : ι} (hi : i ∉ fs.flatMap Frame.labels) (g : Tree ι α → Tree ι α)
    (t : Tree ι α) : (plug fs t).update i g = plug fs (t.update i g) := by
  induction fs generalizing t with
  | nil => rfl
  | cons f fs ih =>
    rw [List.flatMap_cons, List.mem_append, not_or] at hi
    rw [plug, ih hi.2, update_frame hi.1, plug]

end Tree

namespace Hole

variable {h : Hole ι α} {t : Tree ι α}

/-- Inside and outside of a hole labels differ. -/
theorem not_mem_labels (hnodup : ((h.fill t).flatMap Tree.labels).Nodup) {i : ι} (hi : i ∈ t.labels) :
    i ∉ h.labels := by
  have hdisjoint := (List.nodup_append.mp ((h.labels_fill t).nodup_iff.mp hnodup)).2.2
  exact fun hout => hdisjoint i hi i hout rfl

theorem mem_preorder_fill (h : Hole ι α) (t : Tree ι α) : t ∈ (h.fill t).flatMap preorder :=
  List.mem_flatMap.mpr ⟨plug h.frames t, List.mem_append_right _ List.mem_cons_self,
    mem_preorder_plug h.frames t.self_mem_preorder⟩

/-- Where labels are distinct, the roots and the operands differ. -/
theorem nodup_inner {ts : List (Tree ι α)} (hnodup : (ts.flatMap Tree.labels).Nodup) :
    (ts.map Tree.label ++ ts.flatMap innerLabels).Nodup := by
  have hall := (List.Perm.flatMap_left ts fun t _ => t.labels_perm_inner).nodup_iff.mp hnodup
  have hsplit := (List.flatMap_append_perm ts (fun t => [t.label]) innerLabels).symm.nodup_iff.mp hall
  rwa [← List.map_eq_flatMap] at hsplit

/-- Where labels are distinct, no node is an operand of two nodes. -/
theorem eq_of_common_child {ts : List (Tree ι α)} (hnodup : (ts.flatMap Tree.labels).Nodup) {u v : Tree ι α}
    (hu : u ∈ ts.flatMap preorder) (hv : v ∈ ts.flatMap preorder) {i : ι} (hui : i ∈ u.children.map Tree.label)
    (hvi : i ∈ v.children.map Tree.label) : u = v := by
  have hinner : ((ts.flatMap preorder).flatMap fun u => u.children.map Tree.label).Nodup := by
    rw [List.flatMap_assoc]
    exact (List.nodup_append.mp (nodup_inner hnodup)).2.1
  have hpair := (List.nodup_flatMap.mp hinner).2
  by_contra hne
  have : Std.Symm (Function.onFun List.Disjoint fun u : Tree ι α => u.children.map Tree.label) :=
    ⟨fun _ _ hdisjoint _ hx hy => hdisjoint hy hx⟩
  exact hpair.forall hu hv hne hui hvi

variable [DecidableEq ι]

/-- **A change at the label of what fills a hole changes what fills it.** -/
theorem update_fill (hi : t.label ∉ h.labels) (g : Tree ι α → Tree ι α) :
    updateAll t.label g (h.fill t) = h.fill (g t) := by
  rw [labels, List.mem_append, not_or, List.flatMap_append, List.mem_append, not_or] at hi
  obtain ⟨hframes, hbefore, hafter⟩ := hi
  rw [fill, updateAll_append, updateAll, updateAll_of_not_mem g hbefore, updateAll_of_not_mem g hafter,
    update_plug hframes, update_label, fill]

/-- **The node at the label of what fills a hole is found there.** -/
theorem find?_fill (hnodup : ((h.fill t).flatMap Tree.labels).Nodup) :
    (h.fill t).findSome? (·.find? t.label) = some t := by
  have hfind : ((h.fill t).flatMap preorder).find? (·.label = t.label) = some t := by
    refine find?_eq_of_nodup (h.mem_preorder_fill t) (decide_eq_true rfl) fun u hu hlabel => ?_
    have hmap : (((h.fill t).flatMap preorder).map label).Nodup := by
      rw [List.map_flatMap]
      exact hnodup
    exact List.inj_on_of_nodup_map hmap hu (h.mem_preorder_fill t) (of_decide_eq_true hlabel)
  rw [List.find?_flatMap] at hfind
  exact hfind

/-- **The node with what fills a hole as an operand** is the one above the hole. -/
theorem parentOf?_fill (hnodup : ((h.fill t).flatMap Tree.labels).Nodup) :
    (h.fill t).findSome? (·.parentOf? t.label) = h.frames.head?.map (·.fill t) := by
  have hflat : (h.fill t).findSome? (·.parentOf? t.label) =
      ((h.fill t).flatMap preorder).find? (hasChild t.label) := by rw [List.find?_flatMap]; rfl
  have hchild : ∀ u : Tree ι α, hasChild t.label u = true ↔ t.label ∈ u.children.map Tree.label := by
    intro u
    simp [hasChild]
  rw [hflat]
  obtain ⟨frames, before, after⟩ := h
  cases frames with
  | nil =>
    -- A root is no operand: its label would occur twice.
    rw [List.head?_nil, Option.map_none, List.find?_eq_none]
    intro u hu hhas
    have hroot : t.label ∈ (before ++ t :: after).map Tree.label :=
      List.mem_map_of_mem (List.mem_append_right _ List.mem_cons_self)
    have hinner : t.label ∈ (before ++ t :: after).flatMap innerLabels := by
      obtain ⟨r, hr, hu⟩ := List.mem_flatMap.mp hu
      exact List.mem_flatMap.mpr ⟨r, hr, List.mem_flatMap.mpr ⟨u, hu, (hchild u).mp hhas⟩⟩
    exact (List.nodup_append.mp (nodup_inner hnodup)).2.2 _ hroot _ hinner rfl
  | cons f fs =>
    rw [List.head?_cons, Option.map_some]
    have hparent := mem_preorder_fill ⟨fs, before, after⟩ (f.fill t)
    have hlabel : t.label ∈ (f.fill t).children.map Tree.label := by
      rw [f.children_fill]
      simp
    refine find?_eq_of_nodup hparent ((hchild _).mpr hlabel) fun u hu hhas => ?_
    exact eq_of_common_child hnodup hu hparent ((hchild _).mp hhas) hlabel

end Hole

end SignalFlow
