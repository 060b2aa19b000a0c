import Mathlib.Logic.Relation
import SignalFlow.Proofs.Arena.Edit
import SignalFlow.Proofs.Arena.Forest

/-!
# Consistent arenas

What keeps the handles of an arena in order (`Consistent`) holds of the arena of a whole expression
(`Expr.consistent_arena`). If in addition no node but the root is without a parent (`Joined`), then `check` has nothing
to find (`Expr.check_arena`). The arena is joined just if nothing of the expression is detached (`Expr.joined_iff`), and
then the check of the expression succeeds as well (`Expr.check_eq_ok`).
-/

namespace SignalFlow

open SignalFlow.Tree

variable {α : Type}

namespace Arena

/-- There is a node at a handle. -/
def IsLive (a : Arena α) (i : Id) : Prop := (a.node? i).isSome

/-- **What keeps the handles of an arena in order.** -/
structure Consistent (a : Arena α) : Prop where
  /-- No slot is free twice. -/
  free_nodup : a.free.Nodup
  /-- The free slots are the empty ones. -/
  mem_free : ∀ i, i ∈ a.free ↔ i.index < a.slots.size ∧ a.slot? i = none
  root_live : a.IsLive a.root
  root_parent : a.parent? a.root = none
  /-- An operand is live and knows its parent. -/
  operand : ∀ i c, c ∈ a.children i → a.IsLive c ∧ a.parent? c = some i
  /-- No node is an operand at two positions. -/
  position : ∀ (i j c : Id) (m n : Nat), (a.children i)[m]? = some c → (a.children j)[n]? = some c → i = j ∧ m = n
  /-- No node is above itself. -/
  acyclic : ∀ i, ¬ Relation.TransGen (fun c p => a.parent? c = some p) i i

/-- No live node but the root is without a parent. -/
def Joined (a : Arena α) : Prop := ∀ i, a.IsLive i → a.parent? i = none → i = a.root

variable {a : Arena α} {l : Layout α}

/-! ## The check -/

theorem Shows.parent?_child (h : Shows a l) {t c : Tree Id α} (ht : l.Sits t) (hc : c ∈ t.children) :
    a.parent? c.label = some t.label := by
  obtain ⟨p, hp⟩ := ht
  rw [cells_eq] at hp
  have hcells := ((cells_le_cellsAll _ hc).trans (Multiset.le_add_left _ _)).trans hp
  rw [cells_eq] at hcells
  exact h.parent? (Multiset.mem_of_le hcells (Multiset.mem_add.mpr (.inl (Multiset.mem_singleton_self _))))

/-- The walk of the check counts the nodes of trees that sit there, if none is met twice. -/
theorem checkLoop_eq (h : Shows a l) (fuel : Nat) (ts : List (Tree Id α)) (seen : List Id) (hts : ∀ t ∈ ts, l.Sits t)
    (hnodup : (ts.flatMap labels ++ seen).Nodup) (hfuel : (ts.map size).sum ≤ fuel) :
    a.checkLoop fuel (ts.map label) seen = .ok (.ok (seen.length + (ts.map size).sum)) := by
  induction fuel, ts, hfuel using stackInduction size_pos generalizing seen with
  | nil fuel => cases fuel <;> rfl
  | cons fuel t ts _ ih =>
    have ht := hts t List.mem_cons_self
    have hperm : ((t.children.reverse ++ ts).flatMap labels ++ t.label :: seen).Perm
        ((t :: ts).flatMap labels ++ seen) := by
      rw [List.flatMap_cons, List.flatMap_append, labels_eq t, List.cons_append, List.cons_append]
      refine List.perm_middle.trans (List.Perm.cons _ (List.Perm.append_right _ (List.Perm.append_right _ ?_)))
      exact List.Perm.flatMap_right _ (List.reverse_perm _)
    have hseen : t.label ∉ seen := fun hmem =>
      (List.nodup_append.mp hnodup).2.2 t.label
        (List.mem_flatMap.mpr ⟨t, List.mem_cons_self, t.label_mem_labels⟩) t.label hmem rfl
    have hparents : (t.children.map label).find? (fun c => a.parent? c ≠ some t.label) = none := by
      refine List.find?_eq_none.mpr fun c hc => ?_
      obtain ⟨u, hu, rfl⟩ := List.mem_map.mp hc
      simpa using h.parent?_child ht hu
    have hpush : t.children.reverse.Perm t.children := List.reverse_perm _
    have hrest := ih (t.children.reverse ++ ts) (size_push hpush ts) (t.label :: seen) (sits_push hpush hts)
      (hperm.nodup_iff.mpr hnodup)
    rw [List.map_cons, checkLoop, h.node_tree ht, if_neg (by simp), if_neg hseen, h.children_tree ht]
    simp only [hparents]
    rw [← List.map_reverse, ← List.map_append, hrest, List.map_append, List.sum_append, List.map_reverse,
      List.sum_reverse, List.length_cons, List.map_cons, List.sum_cons, size_eq t]
    congr 2
    omega

end Arena

namespace Expr

open Arena

variable {e : Expr α} {h : Hole Id α} {t : Tree Id α}

/-! ## The arena of a whole expression -/

theorem children_arena (he : e.Whole) (hfill : e.forest = h.fill t) :
    e.arena.children t.label = t.children.map label := by
  rw [(shows_arena he).children (cell_of_fill hfill), children_shape]

theorem parent?_arena (he : e.Whole) (hfill : e.forest = h.fill t) : e.arena.parent? t.label = h.parent? :=
  (shows_arena he).parent? (cell_of_fill hfill)

theorem node?_arena (he : e.Whole) (hfill : e.forest = h.fill t) : e.arena.node? t.label = some t.shape :=
  (shows_arena he).node? (cell_of_fill hfill)

theorem node?_arena_of_dead (he : e.Whole) {i : Id} (hdead : ∀ c, (i, c) ∉ e.layout.cells) :
    e.arena.node? i = none := by
  rw [Arena.node?, (shows_arena he).slot?_eq_none hdead, Option.map_none]

/-- **A live handle is the label of what fills a hole.** -/
theorem fills_of_live (he : e.Whole) {i : Id} (hi : e.arena.IsLive i) :
    ∃ (h : Hole Id α) (t : Tree Id α), e.forest = h.fill t ∧ t.label = i := by
  rcases e.dead_or_fills i with ⟨-, hdead⟩ | hfills
  · rw [IsLive, node?_arena_of_dead he hdead] at hi
    cases hi
  · exact hfills

/-- A node with operands is live. -/
theorem fills_of_child (he : e.Whole) {i c : Id} (hc : c ∈ e.arena.children i) :
    ∃ (h : Hole Id α) (t : Tree Id α), e.forest = h.fill t ∧ t.label = i := by
  rcases e.dead_or_fills i with ⟨-, hdead⟩ | hfills
  · rw [Arena.children, node?_arena_of_dead he hdead] at hc
    cases hc
  · exact hfills

theorem fills_root (e : Expr α) : e.forest = Hole.fill ⟨[], [], e.detached⟩ e.tree := rfl

/-- An operand fills the hole that it leaves. -/
theorem fills_operand (hfill : e.forest = h.fill t) {c : Tree Id α} (hc : c ∈ t.children) :
    ∃ f : Frame Id α, f.label = t.label ∧ e.forest = (h.push f).fill c := by
  obtain ⟨f, rfl⟩ := Frame.exists_fill hc
  exact ⟨f, (f.label_fill c).symm, hfill⟩

theorem mem_free_iff (he : e.Whole) (i : Id) :
    i ∈ e.arena.free ↔ i.index < e.arena.slots.size ∧ e.arena.slot? i = none := by
  have hshows := shows_arena he
  rw [hshows.size, hshows.free]
  constructor
  · intro hi
    refine ⟨Layout.Whole.lt_size_of_free he hi, hshows.slot?_eq_none fun c hc => ?_⟩
    exact Layout.Whole.not_free he hc hi
  · rintro ⟨hlt, hnone⟩
    have hmem : i ∈ (e.layout.slots.free : Multiset Id) + e.layout.cells.map Prod.fst :=
      (show e.layout.Whole from he) ▸ mem_handlesBelow.mpr hlt
    rcases Multiset.mem_add.mp hmem with hfree | hcell
    · exact Multiset.mem_coe.mp hfree
    · obtain ⟨⟨j, c⟩, hc, rfl⟩ := Multiset.mem_map.mp hcell
      rw [(hshows.slot j c).mpr hc] at hnone
      cases hnone

/-- The number of nodes below a handle. -/
def rank (e : Expr α) (i : Id) : Nat := ((e.node? i).map Tree.size).getD 0

/-- There are fewer nodes below an operand. -/
theorem rank_lt (he : e.Whole) {c p : Id} (hp : e.arena.parent? c = some p) : e.rank c < e.rank p := by
  rcases e.dead_or_fills c with ⟨-, hdead⟩ | ⟨⟨frames, before, after⟩, t, hfill, rfl⟩
  · rw [Arena.parent?, (shows_arena he).slot?_eq_none hdead] at hp
    cases hp
  · rw [parent?_arena he hfill] at hp
    cases frames with
    | nil => cases hp
    | cons f fs =>
      cases hp
      have houter : e.forest = Hole.fill ⟨fs, before, after⟩ (f.fill t) := hfill
      have hsize : t.size < (f.fill t).size := size_lt_of_mem_children (by simp [f.children_fill])
      rw [rank, rank, ← f.label_fill t, node?_of_fill he hfill, node?_of_fill he houter]
      exact hsize

theorem rank_lt_of_above (he : e.Whole) {i j : Id}
    (h : Relation.TransGen (fun c p => e.arena.parent? c = some p) i j) : e.rank i < e.rank j := by
  induction h with
  | single hp => exact rank_lt he hp
  | tail _ hp ih => exact ih.trans (rank_lt he hp)

/-- The operands of a node differ. -/
theorem nodup_children (he : e.Whole) (hfill : e.forest = h.fill t) : (t.children.map label).Nodup := by
  have hinner := (List.nodup_append.mp (Hole.nodup_inner he.nodup_labels)).2.1
  have hmem : t ∈ e.forest.flatMap preorder := hfill ▸ h.mem_preorder_fill t
  obtain ⟨u, hu, ht⟩ := List.mem_flatMap.mp hmem
  exact (List.nodup_flatMap.mp ((List.nodup_flatMap.mp hinner).1 u hu)).1 t ht

/-- **The arena of a whole expression is consistent.** -/
theorem consistent_arena (he : e.Whole) : e.arena.Consistent := by
  have hoperand : ∀ i c, c ∈ e.arena.children i → e.arena.IsLive c ∧ e.arena.parent? c = some i := by
    intro i c hc
    obtain ⟨h, t, hfill, rfl⟩ := fills_of_child he hc
    rw [children_arena he hfill] at hc
    obtain ⟨u, hu, rfl⟩ := List.mem_map.mp hc
    obtain ⟨f, hf, hinner⟩ := fills_operand hfill hu
    refine ⟨?_, ?_⟩
    · rw [IsLive, node?_arena he hinner]
      rfl
    · rw [parent?_arena he hinner, Hole.parent?_push, hf]
  refine ⟨(Multiset.nodup_add.mp (Layout.Whole.nodup he)).1, mem_free_iff he, ?_, parent?_arena he e.fills_root,
    hoperand, ?_, fun i hi => Nat.lt_irrefl _ (rank_lt_of_above he hi)⟩
  · rw [IsLive]
    change (e.arena.node? e.tree.label).isSome
    rw [node?_arena he e.fills_root]
    rfl
  · intro i j c m n hm hn
    have hi := (hoperand i c (List.mem_of_getElem? hm)).2
    have hj := (hoperand j c (List.mem_of_getElem? hn)).2
    have hij : i = j := Option.some.inj (hi.symm.trans hj)
    subst hij
    refine ⟨rfl, ?_⟩
    obtain ⟨h, t, hfill, rfl⟩ := fills_of_child he (List.mem_of_getElem? hm)
    have hnodup := nodup_children he hfill
    rw [← children_arena he hfill] at hnodup
    obtain ⟨hlt, -⟩ := List.getElem?_eq_some_iff.mp hm
    exact (List.getElem?_inj hlt hnodup).mp (hm.trans hn.symm)

/-- **An arena is joined if nothing is detached**, and only then. -/
theorem joined_iff (he : e.Whole) : e.arena.Joined ↔ e.detached = [] := by
  constructor
  · intro hjoined
    cases hdetached : e.detached with
    | nil => rfl
    | cons t ts =>
      have hfill : e.forest = Hole.fill ⟨[], [e.tree], ts⟩ t := by
        rw [forest, hdetached]
        rfl
      have hroot : t.label = e.tree.label :=
        hjoined t.label (by rw [IsLive, node?_arena he hfill]; rfl) (parent?_arena he hfill)
      have hnodup := he.nodup_labels
      rw [forest, hdetached, List.flatMap_cons, List.nodup_append] at hnodup
      refine absurd rfl (hnodup.2.2 e.tree.label e.tree.label_mem_labels e.tree.label ?_)
      exact List.mem_flatMap.mpr ⟨t, List.mem_cons_self, hroot ▸ t.label_mem_labels⟩
  · intro hdetached i hi hparent
    obtain ⟨⟨frames, before, after⟩, t, hfill, rfl⟩ := fills_of_live he hi
    rw [parent?_arena he hfill] at hparent
    cases frames with
    | cons f fs => cases hparent
    | nil =>
      rw [forest, hdetached, Hole.fill] at hfill
      cases before with
      | nil => exact congrArg label (List.cons.inj hfill).1.symm
      | cons b bs => exact absurd (List.cons.inj hfill).2 (by simp)

/-- **The check of an arena** finds nothing where nothing is detached. -/
theorem check_arena (he : e.Whole) (hdetached : e.detached = []) : e.arena.check = .ok (.ok ()) := by
  have hshows := shows_arena he
  have hsits : e.layout.Sits e.tree := ⟨none, cells_le_cellsAll none List.mem_cons_self⟩
  have hlabels : e.tree.labels.Nodup := by
    have hnodup := he.nodup_labels
    rwa [forest, hdetached, List.flatMap_singleton] at hnodup
  have hloop := checkLoop_eq hshows e.arena.limit [e.tree] [] (by simpa using hsits)
    (by simpa using hlabels) (by simpa using (hshows.size_lt_limit hsits).le)
  have hlive : e.arena.live = e.tree.size := by
    have hcard := Layout.Whole.card he
    have hcells : Multiset.card e.layout.cells = e.tree.size := by
      rw [layout, forest, hdetached, cellsAll, cellsAll, add_zero, card_cells]
    rw [Arena.live, hshows.size, hshows.free]
    omega
  have hroot : e.arena.root = e.tree.label := rfl
  rw [List.map_singleton, List.map_singleton, List.sum_singleton, List.length_nil, Nat.zero_add] at hloop
  rw [Arena.check, hroot, node?_arena he e.fills_root, parent?_arena he e.fills_root, if_neg (by simp),
    if_neg (by simp [Hole.parent?]), hloop]
  simp [Except.map, Except.bind, hlive]

/-! ## The check of an expression -/

/-- Marking other slots does not change a mark. -/
theorem getElem?_marks {free : List Id} {marks : Array Bool} {i : Id} (hi : i ∉ free) :
    (free.foldl (fun marks j => marks.setIfInBounds j.index true) marks)[i.index]? = marks[i.index]? := by
  induction free generalizing marks with
  | nil => rfl
  | cons j free ih =>
    rw [List.mem_cons, not_or] at hi
    have hindex : j.index ≠ i.index := fun h => hi.1 (congrArg Id.mk h.symm)
    rw [List.foldl_cons, ih hi.2, Array.getElem?_setIfInBounds_ne hindex]

/-- Distinct labels can be marked one after the other. -/
theorem markAll_ok (fault : Id → NodeFault) {labels : List Id} (marks : Array Bool) (hnodup : labels.Nodup)
    (hfree : ∀ i ∈ labels, marks[i.index]?.getD false = false) : ∃ marks', markAll fault labels marks = .ok marks' := by
  induction labels generalizing marks with
  | nil => exact ⟨marks, rfl⟩
  | cons i labels ih =>
    obtain ⟨hi, hnodup⟩ := List.nodup_cons.mp hnodup
    rw [markAll, hfree i List.mem_cons_self, if_neg Bool.false_ne_true]
    refine ih _ hnodup fun j hj => ?_
    have hindex : i.index ≠ j.index := by
      intro h
      have hij : i = j := congrArg Id.mk h
      exact hi (hij ▸ hj)
    rw [Array.getElem?_setIfInBounds_ne hindex]
    exact hfree j (List.mem_cons_of_mem _ hj)

/-- **The check of an expression** finds nothing where nothing is detached. -/
theorem check_eq_ok (he : e.Whole) (hdetached : e.detached = []) : e.check = .ok () := by
  have hforest : e.forest.flatMap labels = e.tree.labels := by
    rw [forest, hdetached, List.flatMap_singleton]
  have hkeys := e.keys_layout
  have hnodup := he.nodup_labels
  rw [hforest] at hkeys hnodup
  have hcell : ∀ i ∈ e.tree.labels, i.index < e.slots.size ∧ i ∉ e.slots.free := by
    intro i hi
    rw [← Multiset.mem_coe, ← hkeys] at hi
    obtain ⟨⟨j, c⟩, hc, rfl⟩ := Multiset.mem_map.mp hi
    exact ⟨Layout.Whole.lt_size he hc, Layout.Whole.not_free he hc⟩
  have hfind : e.tree.labels.find? (fun i => (e.slots.free.foldl (fun marks i => marks.setIfInBounds i.index true)
      (Array.replicate e.slots.size false))[i.index]?.getD true) = none := by
    refine List.find?_eq_none.mpr fun i hi => ?_
    rw [getElem?_marks (hcell i hi).2, Array.getElem?_replicate, if_pos (hcell i hi).1]
    exact Bool.false_ne_true
  obtain ⟨marks, hmarks⟩ := markAll_ok .repeated (Array.replicate e.slots.size false) hnodup fun i hi => by
    rw [Array.getElem?_replicate, if_pos (hcell i hi).1]
    rfl
  have hsize : e.tree.labels.length = e.size := by
    have hcard := Layout.Whole.card he
    rw [← Multiset.card_map Prod.fst, hkeys, Multiset.coe_card] at hcard
    change _ = e.slots.size - e.slots.free.length
    have hslots : e.layout.slots = e.slots := rfl
    rw [hslots] at hcard
    omega
  rw [check]
  simp only [hfind, hmarks, hsize]
  rfl

end Expr

end SignalFlow
