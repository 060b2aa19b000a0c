import SignalFlow.Proofs.Arena.Cells
import SignalFlow.Proofs.Expr.Hole

/-!
# Expressions in an arena

The cells of a forest are those of the tree that fills a hole, below the parent of the hole, and those around it, in
which only the label of this tree occurs (`Hole.cells_fill`).

An expression has a layout (`Expr.layout`) and, read off by its views alone, an arena (`Expr.arena`). If the layout is
whole, the arena shows it (`Expr.shows_arena`), and every handle is dead or the label of what fills a hole of the
expression (`Expr.dead_or_fills`).
-/

namespace SignalFlow

open Arena

variable {α : Type}

/-! ## The cells around a hole -/

/-- The node of a frame, with the label of its operand. -/
def Frame.node : Frame Id α → Id → Node α
  | .negate _, k => .negate k
  | .left _ op b, k => .binary op k b.label
  | .right _ op a, k => .binary op a.label k
  | .item _ before after, k => .list (before.map Tree.label ++ k :: after.map Tree.label)

theorem Frame.shape_fill (f : Frame Id α) (t : Tree Id α) : (f.fill t).shape = f.node t.label := by
  cases f with
  | item l before after => simp [fill, node, Tree.shape]
  | _ => rfl

/-- A node with an operand in the place of another. -/
theorem Frame.retarget_node (f : Frame Id α) {old : Id} (new : Id) (h : ∀ t ∈ f.siblings, t.label ≠ old) :
    (f.node old).retarget old new = f.node new := by
  cases f with
  | negate l => simp [node, Node.retarget, Node.mapChildren]
  | left l op b =>
    have hb : b.label ≠ old := h b (by simp [siblings, before, after])
    simp [node, Node.retarget, Node.mapChildren, hb]
  | right l op a =>
    have ha : a.label ≠ old := h a (by simp [siblings, before, after])
    simp [node, Node.retarget, Node.mapChildren, ha]
  | item l us vs =>
    have hmap : ∀ ts : List (Tree Id α), (∀ t ∈ ts, t ∈ us ++ vs) →
        (ts.map Tree.label).map (fun c => if c = old then new else c) = ts.map Tree.label := by
      intro ts hts
      rw [List.map_map]
      exact List.map_congr_left fun t ht => if_neg (h t (hts t ht))
    simp only [node, Node.retarget, Node.mapChildren, List.map_append, List.map_cons, if_true]
    rw [hmap us fun t ht => List.mem_append_left _ ht, hmap vs fun t ht => List.mem_append_right _ ht]

/-- The cells of a frame below a parent, without those of its operand. -/
def Frame.around (f : Frame Id α) (p : Option Id) (k : Id) : Multiset (Id × Cell α) :=
  {(f.label, ⟨f.node k, p⟩)} + Tree.cellsAll (some f.label) f.siblings

theorem Frame.cells_fill (f : Frame Id α) (p : Option Id) (t : Tree Id α) :
    (f.fill t).cells p = t.cells (some f.label) + f.around p t.label := by
  rw [Tree.cells_eq, shape_fill, label_fill, children_fill, around, siblings, Tree.cellsAll_append,
    Tree.cellsAll_append, Tree.cellsAll]
  abel

namespace Hole

/-- The cells of frames, without those of the operand of the innermost one. -/
def aroundAll : List (Frame Id α) → Id → Multiset (Id × Cell α)
  | [], _ => 0
  | f :: fs, k => f.around (fs.head?.map Frame.label) k + aroundAll fs f.label

theorem cells_plug (fs : List (Frame Id α)) (t : Tree Id α) :
    (plug fs t).cells none = t.cells (fs.head?.map Frame.label) + aroundAll fs t.label := by
  induction fs generalizing t with
  | nil => exact (add_zero _).symm
  | cons f fs ih =>
    rw [plug, ih, f.cells_fill, f.label_fill, aroundAll, add_assoc]
    rfl

variable (h : Hole Id α)

/-- **The cells around a hole** that is filled with a tree of the label `k`. -/
def around (k : Id) : Multiset (Id × Cell α) := aroundAll h.frames k + Tree.cellsAll none (h.before ++ h.after)

/-- The root of the first tree, if the hole is filled with a tree of the label `k`. -/
def root (k : Id) : Id :=
  match h.before with
  | t :: _ => t.label
  | [] => (h.frames.getLast?.map Frame.label).getD k

/-- A layout in which a tree fills the hole. -/
def layout (s : Slots) (t : Tree Id α) : Layout α := ⟨s, h.root t.label, t.cells h.parent? + h.around t.label⟩

/-- **The cells of a forest** are those inside and those around a hole. -/
theorem cells_fill (t : Tree Id α) : Tree.cellsAll none (h.fill t) = t.cells h.parent? + h.around t.label := by
  rw [fill, Tree.cellsAll_append, Tree.cellsAll, cells_plug, around, Tree.cellsAll_append, parent?]
  abel

theorem around_push (f : Frame Id α) (k : Id) : (h.push f).around k = f.around h.parent? k + h.around f.label := by
  rw [around, around, push, aroundAll, add_assoc]
  rfl

theorem root_push (f : Frame Id α) (k : Id) : (h.push f).root k = h.root f.label := by
  obtain ⟨frames, before, after⟩ := h
  cases before with
  | cons t ts => rfl
  | nil =>
    cases frames with
    | nil => rfl
    | cons g gs => simp [root, push, List.getLast?_cons]

theorem layout_push (f : Frame Id α) (s : Slots) (t : Tree Id α) : (h.push f).layout s t = h.layout s (f.fill t) := by
  rw [layout, layout, root_push, around_push, f.cells_fill, f.label_fill, parent?_push, add_assoc]

/-- A place in inner frames is one in the outer frames, filled with what is in the inner ones. -/
theorem layout_append (fs gs : List (Frame Id α)) (before after : List (Tree Id α)) (s : Slots) (t : Tree Id α) :
    layout ⟨fs ++ gs, before, after⟩ s t = layout ⟨gs, before, after⟩ s (plug fs t) := by
  induction fs generalizing t with
  | nil => rfl
  | cons f fs ih => exact (layout_push ⟨fs ++ gs, before, after⟩ f s t).trans (ih (f.fill t))

theorem layout_plug (fs : List (Frame Id α)) (before after : List (Tree Id α)) (s : Slots) (t : Tree Id α) :
    layout ⟨fs, before, after⟩ s t = layout ⟨[], before, after⟩ s (plug fs t) := by
  rw [← layout_append, List.append_nil]

theorem label_plug (fs : List (Frame Id α)) (t : Tree Id α) :
    (plug fs t).label = (fs.getLast?.map Frame.label).getD t.label := by
  induction fs generalizing t with
  | nil => rfl
  | cons f fs ih =>
    rw [plug, ih, f.label_fill, List.getLast?_cons]
    cases fs.getLast? <;> rfl

variable {h}

theorem sits (h : Hole Id α) (s : Slots) (t : Tree Id α) : (h.layout s t).Sits t := Layout.Sits.of_add t _

end Hole

namespace Expr

/-! ## The layout of an expression -/

/-- **The layout of an expression.** -/
def layout (e : Expr α) : Layout α := ⟨e.slots, e.root, Tree.cellsAll none e.forest⟩

/-- The free slots of an expression and its labels are all its slots, each once. -/
def Whole (e : Expr α) : Prop := e.layout.Whole

variable {e : Expr α} {h : Hole Id α} {t : Tree Id α}

theorem keys_layout (e : Expr α) : e.layout.cells.map Prod.fst = (e.forest.flatMap Tree.labels : Multiset Id) :=
  Tree.keys_cellsAll none e.forest

theorem mem_labels_of_cell {i : Id} {c : Cell α} (hc : (i, c) ∈ e.layout.cells) :
    i ∈ e.forest.flatMap Tree.labels := by
  rw [← Multiset.mem_coe, ← e.keys_layout]
  exact Multiset.mem_map.mpr ⟨(i, c), hc, rfl⟩

theorem Whole.nodup_labels (he : e.Whole) : (e.forest.flatMap Tree.labels).Nodup := by
  rw [← Multiset.coe_nodup, ← e.keys_layout]
  exact (Multiset.nodup_add.mp (Layout.Whole.nodup he)).2.1

/-- The layout of an expression, at a hole. -/
theorem layout_of_fill (hfill : e.forest = h.fill t) : e.layout = h.layout e.slots t := by
  have hroot : e.root = h.root t.label := by
    obtain ⟨frames, before, after⟩ := h
    cases before with
    | nil => exact (congrArg Tree.label (List.cons.inj hfill).1).trans (Hole.label_plug frames t)
    | cons b bs => exact congrArg Tree.label (List.cons.inj hfill).1
  rw [layout, hroot, hfill, h.cells_fill, Hole.layout]

/-- A changed expression, at a hole. -/
theorem forest_update (he : e.Whole) (hfill : e.forest = h.fill t) (g : Tree Id α → Tree Id α) :
    (e.update t.label g).forest = h.fill (g t) := by
  have hnodup : ((h.fill t).flatMap Tree.labels).Nodup := hfill ▸ he.nodup_labels
  rw [← Hole.update_fill (Hole.not_mem_labels hnodup t.label_mem_labels) g, ← hfill]
  rfl

theorem node?_of_fill (he : e.Whole) (hfill : e.forest = h.fill t) : e.node? t.label = some t := by
  rw [node?, hfill]
  exact Hole.find?_fill (hfill ▸ he.nodup_labels)

theorem holder?_of_fill (he : e.Whole) (hfill : e.forest = h.fill t) :
    e.holder? t.label = h.frames.head?.map (·.fill t) := by
  rw [holder?, hfill]
  exact Hole.parentOf?_fill (hfill ▸ he.nodup_labels)

theorem parent?_of_fill (he : e.Whole) (hfill : e.forest = h.fill t) : e.parent? t.label = h.parent? := by
  rw [parent?, holder?_of_fill he hfill, Option.map_map, Hole.parent?]
  congr 1
  funext f
  exact f.label_fill t

theorem node?_eq_none {i : Id} (hi : i ∉ e.forest.flatMap Tree.labels) : e.node? i = none := by
  refine List.findSome?_eq_none_iff.mpr fun t ht => List.find?_eq_none.mpr fun u hu hlabel => hi ?_
  exact List.mem_flatMap.mpr ⟨t, ht, List.mem_map.mpr ⟨u, hu, of_decide_eq_true hlabel⟩⟩

/-- **A handle is dead or the label of what fills a hole.** -/
theorem dead_or_fills (e : Expr α) (i : Id) :
    (e.node? i = none ∧ ∀ c, (i, c) ∉ e.layout.cells) ∨
      ∃ (h : Hole Id α) (t : Tree Id α), e.forest = h.fill t ∧ t.label = i := by
  by_cases hi : i ∈ e.forest.flatMap Tree.labels
  · obtain ⟨h, t, hfill, hlabel⟩ := Hole.exists_fill hi
    exact .inr ⟨h, t, hfill.symm, hlabel⟩
  · exact .inl ⟨node?_eq_none hi, fun c hc => hi (mem_labels_of_cell hc)⟩

/-- The root of a tree in a hole of an expression has its cell. -/
theorem cell_of_fill (hfill : e.forest = h.fill t) : (t.label, ⟨t.shape, h.parent?⟩) ∈ e.layout.cells := by
  rw [layout_of_fill hfill, Hole.layout, Tree.cells_eq]
  simp

/-! ## The arena of an expression -/

/-- **The arena of an expression**: in each slot the node of its handle, with the parent of this node. -/
def arena (e : Expr α) : Arena α where
  slots := (Array.range e.slots.size).map fun n => (e.node? ⟨n⟩).map fun t => ⟨t.shape, e.parent? ⟨n⟩⟩
  free := e.slots.free
  root := e.root

theorem slot?_arena (e : Expr α) (i : Id) : e.arena.slot? i =
    if i.index < e.slots.size then (e.node? i).map fun t => ⟨t.shape, e.parent? i⟩ else none := by
  rw [Arena.slot?, arena, Array.getElem?_map, Array.getElem?_range]
  split <;> rfl

/-- **The arena of an expression shows its layout.** -/
theorem shows_arena (he : e.Whole) : Shows e.arena e.layout := by
  refine ⟨he, rfl, by simp [arena, layout], rfl, fun i c => ?_⟩
  rw [slot?_arena]
  rcases e.dead_or_fills i with ⟨hnone, hdead⟩ | ⟨h, t, hfill, rfl⟩
  · simp [hnone, hdead c]
  · have hcell := cell_of_fill hfill
    have hlt : t.label.index < e.slots.size := Layout.Whole.lt_size he hcell
    rw [if_pos hlt, node?_of_fill he hfill, parent?_of_fill he hfill, Option.map_some,
      Option.some.injEq]
    constructor
    · rintro rfl
      exact hcell
    · exact fun hc => Layout.Whole.cell_unique he hcell hc

theorem eq_arena (he : e.Whole) {a : Arena α} (ha : Shows a e.layout) : a = e.arena := ha.unique (shows_arena he)

end Expr

end SignalFlow
