import SignalFlow.Proofs.Arena.Surgery

/-!
# The operations on the arena of an expression

On the arena of an expression each operation does what the operation of this name does on the expression: it has the
same answer, it leaves the arena of the changed expression, and when the one is refused so is the other, and nothing has
changed (`Refines`). Arguments and answers that are expressions become their arenas.
-/

namespace SignalFlow

open Arena SignalFlow.Tree

variable {α β : Type}

/-- **A step does on the arena of an expression** what is said of the expression: an answer and a changed expression, or
an error. -/
def Arena.Refines (x : Step α β) (e : Expr α) : Except ExprError (β × Expr α) → Prop
  | .ok (b, e') => Does x e.layout (.ok b) e'.layout
  | .error err => Does x e.layout (.error err) e.layout

namespace Expr

variable {e f : Expr α} {h : Hole Id α} {t : Tree Id α}

theorem sits_tree (e : Expr α) : e.layout.Sits e.tree := ⟨none, cells_le_cellsAll none List.mem_cons_self⟩

theorem cellsAll_forest (e : Expr α) : cellsAll none e.forest = e.tree.cells none + cellsAll none e.detached := rfl

/-! ## Joining -/

/-- A new root, made above the tree of an expression and others that are nowhere yet. -/
theorem alloc_root {s : Slots} {r : Id} {C : Multiset (Id × Cell α)} (hlabel : t.label = s.take.1) :
    Does (do let i ← alloc t.shape; setRoot i) ⟨s, r, cellsAll none t.children + C⟩ (.ok ())
      ⟨s.take.2, t.label, t.cells none + C⟩ :=
  (alloc_tree hlabel).bind (setRoot_does t.label)

theorem negate_refines (e : Expr α) : Refines Arena.negate e (.ok ((), e.negate)) := by
  refine rootId_does.bind ?_
  have halloc := alloc_root (t := .negate e.slots.take.1 e.tree) (s := e.slots) (r := e.root)
    (C := cellsAll none e.detached) rfl
  exact halloc.of_eq (by rw [Tree.children, cellsAll, cellsAll, add_zero]; rfl) rfl

/-- **A copy of an expression** that is nowhere yet. -/
theorem copy_does (hf : f.Whole) {s : Slots} {r : Id} {C : Multiset (Id × Cell α)} :
    Does (Arena.graft f.arena) ⟨s, r, C⟩ (.ok (f.tree.place s).1.label)
      ⟨(f.tree.place s).2, r, (f.tree.place s).1.cells none + C⟩ :=
  copyFrom_does (shows_arena hf) f.sits_tree

theorem graft_refines (e : Expr α) (hf : f.Whole) : Refines (Arena.graft f.arena) e (.ok (e.graft f)) := by
  refine (copy_does hf).of_eq rfl ?_
  change cellsAll none (e.forest ++ [(f.tree.place e.slots).1]) = _
  rw [cellsAll_append, cellsAll, cellsAll, add_zero, add_comm]

theorem binary_refines (op : BinaryOp) (e : Expr α) (hf : f.Whole) :
    Refines (Arena.binary op f.arena) e (.ok ((), Expr.binary op e f)) := by
  refine rootId_does.bind ((copy_does hf).bind ?_)
  have halloc := alloc_root (t := .binary (f.tree.place e.slots).2.take.1 op e.tree (f.tree.place e.slots).1)
    (s := (f.tree.place e.slots).2) (r := e.root) (C := cellsAll none e.detached) rfl
  refine halloc.of_eq ?_ rfl
  rw [Tree.children, cellsAll, cellsAll, cellsAll, add_zero, cellsAll_forest]
  abel

theorem grafts_does {fs : List (Expr α)} (hfs : ∀ f ∈ fs, f.Whole) {s : Slots} {r : Id} {C : Multiset (Id × Cell α)} :
    Does (grafts (fs.map arena)) ⟨s, r, C⟩ (.ok ((placeAll (fs.map Expr.tree) s).1.map Tree.label))
      ⟨(placeAll (fs.map Expr.tree) s).2, r, cellsAll none (placeAll (fs.map Expr.tree) s).1 + C⟩ := by
  induction fs generalizing s C with
  | nil => exact (Does.pure _).of_eq rfl (zero_add C)
  | cons f fs ih =>
    refine (copy_does (hfs f List.mem_cons_self)).bind ?_
    refine (ih fun g hg => hfs g (List.mem_cons_of_mem _ hg)).bind (Does.of_eq (Does.pure _) rfl ?_)
    rw [List.map_cons, placeAll, cellsAll]
    abel

theorem list_refines (e : Expr α) {fs : List (Expr α)} (hfs : ∀ f ∈ fs, f.Whole) :
    Refines (Arena.list (fs.map arena)) e ((Expr.list (e :: fs)).map ((), ·)) := by
  refine rootId_does.bind ((grafts_does hfs).bind ?_)
  have halloc := alloc_root (t := .list (placeAll (fs.map Expr.tree) e.slots).2.take.1
    (e.tree :: (placeAll (fs.map Expr.tree) e.slots).1)) (s := (placeAll (fs.map Expr.tree) e.slots).2) (r := e.root)
    (C := cellsAll none e.detached) rfl
  refine halloc.of_eq ?_ rfl
  rw [Tree.children, cellsAll, cellsAll_forest]
  abel

/-! ## Surgery -/

theorem live_of_none {i : Id} (hi : e.node? i = none) : e.live i = .error (.invalidNode (.notLive i)) := by
  rw [live, hi]

theorem live_of_fill (he : e.Whole) (hfill : e.forest = h.fill t) : e.live t.label = .ok t := by
  rw [live, node?_of_fill he hfill]

/-- The layout of a changed expression, at a hole. -/
theorem layout_change (he : e.Whole) (hfill : e.forest = h.fill t) (g : Tree Id α → Tree Id α) (s : Slots) :
    ({ e.update t.label g with slots := s } : Expr α).layout = h.layout s (g t) :=
  layout_of_fill (e := { e.update t.label g with slots := s }) (forest_update he hfill g)

theorem morph_refines (he : e.Whole) (i : Id) (v : α) : Refines (Arena.morph i v) e ((e.morph i v).map ((), ·)) := by
  rcases e.dead_or_fills i with ⟨hnone, hdead⟩ | ⟨h, t, hfill, rfl⟩
  · rw [morph, live_of_none hnone]
    exact Does.bind_error (checkLive_dead hdead)
  · rw [morph, live_of_fill he hfill]
    have hmorph := morph_does h e.slots t v
    rw [← layout_of_fill hfill, ← layout_change he hfill fun _ => .literal t.label v] at hmorph
    exact hmorph

theorem swap_refines (he : e.Whole) (i : Id) : Refines (Arena.swap i) e ((e.swap i).map ((), ·)) := by
  rcases e.dead_or_fills i with ⟨hnone, hdead⟩ | ⟨h, t, hfill, rfl⟩
  · rw [swap, live_of_none hnone]
    exact Does.bind_error (checkLive_dead hdead)
  · rw [swap, live_of_fill he hfill]
    have hsits : e.layout.Sits t := layout_of_fill hfill ▸ h.sits e.slots t
    cases t with
    | binary l op a b =>
      have hswap := swap_does h e.slots l op a b
      rw [← layout_of_fill hfill, ← layout_change he hfill fun _ => .binary l op b a] at hswap
      exact hswap
    | _ => exact (checkLive_does hsits).bind ((nodeAt_tree hsits).bind (Does.throw _))

theorem setOp_refines (he : e.Whole) (i : Id) (op : BinaryOp) :
    Refines (Arena.setOp i op) e ((e.setOp i op).map ((), ·)) := by
  rcases e.dead_or_fills i with ⟨hnone, hdead⟩ | ⟨h, t, hfill, rfl⟩
  · rw [setOp, live_of_none hnone]
    exact Does.bind_error (checkLive_dead hdead)
  · rw [setOp, live_of_fill he hfill]
    have hsits : e.layout.Sits t := layout_of_fill hfill ▸ h.sits e.slots t
    cases t with
    | binary l old a b =>
      have hset := setOp_does h e.slots l old op a b
      rw [← layout_of_fill hfill, ← layout_change he hfill fun _ => .binary l op a b] at hset
      exact hset
    | _ => exact (checkLive_does hsits).bind ((nodeAt_tree hsits).bind (Does.throw _))

theorem replace_refines (he : e.Whole) (i : Id) (hf : f.Whole) :
    Refines (Arena.replace i f.arena) e ((e.replace i f).map fun p => (p.1.arena, p.2)) := by
  rcases e.dead_or_fills i with ⟨hnone, hdead⟩ | ⟨h, t, hfill, rfl⟩
  · rw [replace, live_of_none hnone]
    exact Does.bind_error (checkLive_dead hdead)
  · rw [replace, live_of_fill he hfill]
    have hreplace := replace_does h e.slots t (shows_arena hf) (u := f.tree) rfl f.sits_tree
    rw [← layout_of_fill hfill, ← layout_change he hfill fun _ => (f.tree.place e.slots).1] at hreplace
    exact hreplace

/-- The node above a hole. -/
theorem holder_of_fill (he : e.Whole) (hfill : e.forest = h.fill t) : e.holder t.label =
    match h.frames with
    | [] => .error .noParent
    | f :: _ => .ok (f.fill t) := by
  rw [holder, holder?_of_fill he hfill]
  cases h.frames <;> rfl

/-- The operands of a node without one of them. -/
theorem filter_fill {f : Frame Id α} (ht : t.label ∉ f.siblings.flatMap labels) :
    (f.fill t).children.filter (·.label ≠ t.label) = f.siblings := by
  have hall : ∀ ts : List (Tree Id α), (∀ c ∈ ts, c ∈ f.siblings) → ts.filter (·.label ≠ t.label) = ts := by
    intro ts hts
    refine List.filter_eq_self.mpr fun c hc => decide_eq_true fun heq => ht ?_
    exact List.mem_flatMap.mpr ⟨c, hts c hc, heq ▸ c.label_mem_labels⟩
  rw [f.children_fill, List.filter_append, List.filter_cons_of_neg (by simp),
    hall _ fun c hc => List.mem_append_left _ hc, hall _ fun c hc => List.mem_append_right _ hc, Frame.siblings]

theorem discardExcept_fill {f : Frame Id α} (ht : t.label ∉ f.siblings.flatMap labels) :
    discardExcept t.label (f.fill t) = f.label :: f.siblings.reverse.flatMap discard := by
  rw [discardExcept, filter_fill ht, f.label_fill, discardAllOnto_nil]

theorem collapse_refines (he : e.Whole) (i : Id) : Refines (Arena.collapse i) e ((e.collapse i).map ((), ·)) := by
  rcases e.dead_or_fills i with ⟨hnone, hdead⟩ | ⟨h, t, hfill, rfl⟩
  · rw [collapse, live_of_none hnone]
    exact Does.bind_error (checkLive_dead hdead)
  · rw [collapse, live_of_fill he hfill, holder_of_fill he hfill]
    obtain ⟨frames, before, after⟩ := h
    cases frames with
    | nil =>
      have hroot := collapse_root ⟨[], before, after⟩ rfl e.slots t
      rw [← layout_of_fill hfill] at hroot
      exact hroot
    | cons f fs =>
      let h : Hole Id α := ⟨fs, before, after⟩
      have houter : e.forest = h.fill (f.fill t) := hfill
      have hwhole : ((h.push f).layout e.slots t).Whole := layout_of_fill (h := h.push f) hfill ▸ he
      have hcollapse := collapse_does h f e.slots t
      rw [← discardExcept_fill (operand_labels hwhole).2, ← layout_of_fill houter,
        ← layout_change he houter fun _ => t] at hcollapse
      exact hcollapse

theorem unlink_refines (he : e.Whole) (i : Id) :
    Refines (Arena.unlink i) e ((e.unlink i).map fun p => (p.1.arena, p.2)) := by
  rcases e.dead_or_fills i with ⟨hnone, hdead⟩ | ⟨h, t, hfill, rfl⟩
  · rw [unlink, live_of_none hnone]
    exact Does.bind_error (checkLive_dead hdead)
  · rw [unlink, live_of_fill he hfill, holder_of_fill he hfill]
    obtain ⟨frames, before, after⟩ := h
    cases frames with
    | nil =>
      have hroot := unlink_root ⟨[], before, after⟩ rfl e.slots t
      rw [← layout_of_fill hfill] at hroot
      exact hroot
    | cons f fs =>
      let h : Hole Id α := ⟨fs, before, after⟩
      have houter : e.forest = h.fill (f.fill t) := hfill
      have hwhole : ((h.push f).layout e.slots t).Whole := layout_of_fill (h := h.push f) hfill ▸ he
      by_cases hf : ∀ l before after, f ≠ .item l before after
      · have hfixed := unlink_fixed h f hf e.slots t
        rw [← layout_of_fill houter] at hfixed
        cases f with
        | item l before after => exact absurd rfl (hf l before after)
        | _ => exact hfixed
      · push Not at hf
        obtain ⟨l, us, vs, rfl⟩ := hf
        have hfilter : (us ++ t :: vs).filter (·.label ≠ t.label) = us ++ vs := filter_fill (operand_labels hwhole).2
        have hunlink := unlink_does h e.slots l us vs t
        change Does _ (h.layout e.slots ((Frame.item l us vs).fill t)) _ _ at hunlink
        rw [← layout_of_fill houter, ← hfilter, ← layout_change he houter fun _ =>
          .list l ((us ++ t :: vs).filter (·.label ≠ t.label))] at hunlink
        exact hunlink

end Expr

end SignalFlow
