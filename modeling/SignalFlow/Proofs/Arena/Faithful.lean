import SignalFlow.Proofs.Arena.Readback
import SignalFlow.Proofs.Rewrite.BareTree

/-!
# Edits are edits of trees

On an orderly arena every edit does to the trees that are read back what it is meant to do to a tree
(`Arena.Orderly.faithful`): copies read back as what was copied, an edit at a node changes the trees with this node at
its place and no others, and a pass makes of the tree what it makes of a bare tree. Nothing depends on which slots are
used. Each arena is that of a whole expression, and what is to be shown of an edit is shown on the expression.
-/

namespace SignalFlow

open SignalFlow.Tree

variable {α : Type}

/-! ## Changes of a tree -/

namespace Tree

/-- A tree with the operands of its root exchanged. -/
def swapped : Term α → Term α
  | .binary l op a b => .binary l op b a
  | t => t

/-- A tree with another operator at its root. -/
def withOp (op : BinaryOp) : Term α → Term α
  | .binary l _ a b => .binary l op a b
  | t => t

/-- A list without the item at a position. -/
def withoutItem (k : Nat) : Term α → Term α
  | .list l items => .list l (items.eraseIdx k)
  | t => t

end Tree

namespace Arena

variable [Scalar α]

/-- **Each edit of an arena is the edit of the trees that are read back.** -/
structure Faithful (a : Arena α) : Prop where
  /-- Every live node has a tree. -/
  live : ∀ i, a.IsLive i → ∃ t, a.Reads i t
  /-- A subtree is copied out. -/
  subtree : ∀ i t, a.Reads i t → ∃ s, run (.subtree i) a = .ok (.ok (.expr s), a) ∧ s.Orderly ∧ s.Reads s.root t
  /-- What is copied in gets nodes of its own, and everything else stays. -/
  graft : ∀ b u, b.Orderly → b.Reads b.root u → ∃ k c, run (.graft b) a = .ok (.ok (.handle k), c) ∧ c.Orderly ∧
    c.Reads k u ∧ (∀ j, c.Below k j → ¬a.IsLive j) ∧ c.root = a.root ∧ ∀ i t, a.Reads i t → c.Reads i t
  /-- A node is replaced by a copy, and answered. -/
  replace : ∀ i b t u, a.Reads i t → b.Orderly → b.Reads b.root u → ∃ s c,
    run (.replace i b) a = .ok (.ok (.expr s), c) ∧ s.Orderly ∧ s.Reads s.root t ∧ c.Orderly ∧
      Changes a c i (fun _ => u) (a.Below i)
  /-- A node takes the place of its parent. -/
  collapse : ∀ i p t, a.Reads i t → a.Under i p → ∃ c, run (.collapse i) a = .ok (.ok .done, c) ∧ c.Orderly ∧
    Changes a c p (fun _ => t) fun j => a.Below p j ∧ ¬a.Below i j
  /-- An item leaves its list, and is answered. -/
  unlink : ∀ i p k items t, a.Reads i t → a.node? p = some (.list items) → items[k]? = some i → ∃ s c,
    run (.unlink i) a = .ok (.ok (.expr s), c) ∧ s.Orderly ∧ s.Reads s.root t ∧ c.Orderly ∧
      Changes a c p (withoutItem k) (a.Below i)
  swap : ∀ i op x y, a.node? i = some (.binary op x y) → ∃ c, run (.swap i) a = .ok (.ok .done, c) ∧ c.Orderly ∧
    Changes a c i swapped fun _ => False
  setOp : ∀ i op new x y, a.node? i = some (.binary op x y) → ∃ c, run (.setOp i new) a = .ok (.ok .done, c) ∧
    c.Orderly ∧ Changes a c i (withOp new) fun _ => False
  /-- A node becomes a literal and loses what is below it. -/
  morph : ∀ i v, a.IsLive i → ∃ c, run (.morph i v) a = .ok (.ok .done, c) ∧ c.Orderly ∧
    Changes a c i (fun _ => .literal () v) fun j => a.Below i j ∧ j ≠ i
  /-- What a pass makes and counts depends on the tree alone. -/
  pass : ∀ p t, a.Reads a.root t → ∃ c, run (.pass p) a = .ok (.ok (.count (p.onTerm t).2), c) ∧ c.Orderly ∧
    c.Reads c.root (p.onTerm t).1

end Arena

namespace Expr

open Arena

variable {e f : Expr α} {h : Hole Id α} {t : Tree Id α} {i : Id}

/-! ## Nodes -/

/-- A node fills a hole. -/
theorem exists_fill_of_node? (he : e.Whole) (ht : e.node? i = some t) :
    ∃ h : Hole Id α, e.forest = h.fill t ∧ t.label = i := by
  rcases e.dead_or_fills i with ⟨hnone, -⟩ | ⟨h, u, hfill, rfl⟩
  · rw [hnone] at ht
    cases ht
  · rw [node?_of_fill he hfill] at ht
    cases ht
    exact ⟨h, hfill, rfl⟩

theorem exists_fill_of_reads (he : e.Whole) {w : Term α} (hw : e.arena.Reads i w) :
    ∃ (h : Hole Id α) (t : Tree Id α), e.forest = h.fill t ∧ t.label = i ∧ t.term = w := by
  obtain ⟨t, ht, hterm⟩ := (reads_arena he).mp hw
  obtain ⟨h, hfill, hlabel⟩ := exists_fill_of_node? he ht
  exact ⟨h, t, hfill, hlabel, hterm⟩

theorem reads_of_fill (he : e.Whole) (hfill : e.forest = h.fill t) : e.arena.Reads t.label t.term :=
  (reads_arena he).mpr ⟨t, node?_of_fill he hfill, rfl⟩

theorem reads_root (he : e.Whole) : e.arena.Reads e.arena.root e.tree.term :=
  (reads_arena he).mpr ⟨e.tree, node?_root he, rfl⟩

theorem tree_of_reads_root (he : e.Whole) {w : Term α} (hw : e.arena.Reads e.arena.root w) : e.tree.term = w :=
  Except.ok.inj ((reads_root he).symm.trans hw)

/-- A copy of a subtree is an orderly arena, which reads back as the subtree. -/
theorem orderly_and_reads_ofTree (he : e.Whole) (hfill : e.forest = h.fill t) :
    (ofTree t).arena.Orderly ∧ (ofTree t).arena.Reads (ofTree t).arena.root t.term := by
  have hwhole : (ofTree t).Whole := whole_of_node he (node?_of_fill he hfill)
  have hreads := reads_root hwhole
  rw [show (ofTree t).tree.term = t.term from term_place t {}] at hreads
  exact ⟨orderly_arena hwhole, hreads⟩

theorem below_of_fill (he : e.Whole) (hfill : e.forest = h.fill t) {j : Id} :
    e.arena.Below t.label j ↔ j ∈ t.labels :=
  below_arena he (node?_of_fill he hfill)

/-- The node at a handle is the node of its tree. -/
theorem fill_of_node (he : e.Whole) {n : Node α} (hn : e.arena.node? i = some n) :
    ∃ (h : Hole Id α) (t : Tree Id α), e.forest = h.fill t ∧ t.label = i ∧ t.shape = n := by
  obtain ⟨t, ht⟩ := (live_arena_iff he).mp (show (e.arena.node? i).isSome by rw [hn]; rfl)
  obtain ⟨h, hfill, rfl⟩ := exists_fill_of_node? he ht
  rw [node?_arena he hfill] at hn
  exact ⟨h, t, hfill, rfl, Option.some.inj hn⟩

/-- **A node gets another operator and its operands in another order**; nothing is gone. -/
theorem changes_binary {e' : Expr α} (he : e.Whole) (he' : e'.Whole) {l : Id} {op op' : BinaryOp}
    {a b a' b' : Tree Id α} (hfill : e.forest = h.fill (.binary l op a b))
    (hfill' : e'.forest = h.fill (.binary l op' a' b')) {g : Term α → Term α}
    (hg : g (.binary () op a.term b.term) = .binary () op' a'.term b'.term)
    (hoperands : ∀ c, c = a ∨ c = b → c = a' ∨ c = b') :
    Changes e.arena e'.arena l g fun _ => False := by
  refine changes_of_fill he he' hfill hfill' hg (fun w hw => .inr ?_) fun i => False.elim
  by_cases hroot : w = .binary l op a b
  · exact .inl ⟨hroot, rfl⟩
  · rw [preorder_eq] at hw
    obtain ⟨c, hc, hw⟩ := List.mem_flatMap.mp ((List.mem_cons.mp hw).resolve_left hroot)
    refine .inr ⟨hroot, mem_preorder_of_mem_children ?_ hw⟩
    simpa [Tree.children] using hoperands c (by simpa [Tree.children] using hc)

/-- A node that is under another one fills a hole below it. -/
theorem exists_frame_of_under (he : e.Whole) (hfill : e.forest = h.fill t) {p : Id} (hp : e.arena.Under t.label p) :
    ∃ (k : Hole Id α) (f : Frame Id α), h = k.push f ∧ f.label = p := by
  rw [Under, parent?_arena he hfill] at hp
  obtain ⟨frames, before, after⟩ := h
  cases frames with
  | nil => cases hp
  | cons f fs => exact ⟨⟨fs, before, after⟩, f, rfl, Option.some.inj hp⟩

variable [Scalar α]

/-! ## Edits -/

/-- **What an answered edit does on the arena of an expression.** -/
theorem run_of_respond {o : Edit α (Expr α)} (he : e.Whole) (ho : ∀ f ∈ o.operands, f.Whole)
    {reply : Reply α (Expr α)} {e' : Expr α} (hr : e.respond o = .ok (.ok (reply, e'))) :
    Arena.run (o.map arena) e.arena = .ok (.ok (reply.map arena), e'.arena) ∧ e'.Whole := by
  refine ⟨?_, whole_of_respond he ho hr⟩
  rw [run_arena he ho, hr]
  rfl

theorem graft_faithful (he : e.Whole) (hf : f.Whole) : ∃ k c,
    Arena.run (.graft f.arena) e.arena = .ok (.ok (.handle k), c) ∧ c.Orderly ∧ c.Reads k f.tree.term ∧
      (∀ j, c.Below k j → ¬e.arena.IsLive j) ∧ c.root = e.arena.root ∧
      ∀ i t, e.arena.Reads i t → c.Reads i t := by
  obtain ⟨hrun, hwhole⟩ := run_of_respond (o := .graft f) he (List.forall_mem_singleton.mpr hf) rfl
  let u := (f.tree.place e.slots).1
  have hforest : (e.graft f).2.forest = e.forest ++ [u] := rfl
  have hfill : (e.graft f).2.forest = Hole.fill ⟨[], e.forest, []⟩ u := rfl
  have hterm : u.term = f.tree.term := term_place f.tree e.slots
  have hmem : ∀ {w}, w ∈ e.forest.flatMap preorder → w ∈ (e.graft f).2.forest.flatMap preorder := fun hw => by
    rw [hforest, List.flatMap_append]
    exact List.mem_append_left _ hw
  refine ⟨_, _, hrun, orderly_arena hwhole, hterm ▸ reads_of_fill hwhole hfill, fun j hj hlive => ?_, rfl,
    fun i w hw => ?_⟩
  · -- the labels of the copy are none of the old ones
    have hnodup := hwhole.nodup_labels
    rw [hforest, List.flatMap_append, List.flatMap_singleton] at hnodup
    obtain ⟨t, ht⟩ := (live_arena_iff he).mp hlive
    obtain ⟨hmem, rfl⟩ := (node?_eq_some_iff he).mp ht
    obtain ⟨r, hr, htr⟩ := List.mem_flatMap.mp hmem
    exact (List.nodup_append.mp hnodup).2.2 _ (List.mem_flatMap.mpr ⟨r, hr, List.mem_map_of_mem htr⟩) _
      ((below_of_fill hwhole hfill).mp hj) rfl
  · obtain ⟨t, ht, rfl⟩ := (reads_arena he).mp hw
    obtain ⟨htmem, hlabel⟩ := (node?_eq_some_iff he).mp ht
    exact (reads_arena hwhole).mpr ⟨t, (node?_eq_some_iff hwhole).mpr ⟨hmem htmem, hlabel⟩, rfl⟩

theorem replace_faithful (he : e.Whole) (hf : f.Whole) (hfill : e.forest = h.fill t) : ∃ c,
    Arena.run (.replace t.label f.arena) e.arena = .ok (.ok (.expr (ofTree t).arena), c) ∧ c.Orderly ∧
      Changes e.arena c t.label (fun _ => f.tree.term) (e.arena.Below t.label) := by
  let u := (f.tree.place e.slots).1
  let e' : Expr α := { e.update t.label fun _ => u with slots := (f.tree.place e.slots).2.release t.discard }
  have hrespond : e.respond (.replace t.label f) = .ok (.ok (.expr (ofTree t), e')) := by
    rw [respond, replace, live_of_fill he hfill]
    rfl
  obtain ⟨hrun, hwhole⟩ := run_of_respond (o := .replace t.label f) he (List.forall_mem_singleton.mpr hf) hrespond
  refine ⟨_, hrun, orderly_arena hwhole, ?_⟩
  refine changes_of_fill (u := u) he hwhole hfill (forest_update he hfill _) (term_place f.tree e.slots).symm
    (fun w hw => .inl ?_) fun i hi => ?_
  · exact (below_of_fill he hfill).mpr (List.mem_map_of_mem hw)
  · exact Slots.mem_free_release.mpr (.inl (mem_discard.mpr ((below_of_fill he hfill).mp hi)))

theorem morph_faithful (he : e.Whole) (hfill : e.forest = h.fill t) (v : α) : ∃ c,
    Arena.run (.morph t.label v) e.arena = .ok (.ok .done, c) ∧ c.Orderly ∧
      Changes e.arena c t.label (fun _ => .literal () v) fun j => e.arena.Below t.label j ∧ j ≠ t.label := by
  let u : Tree Id α := .literal t.label v
  let e' : Expr α := (e.update t.label fun _ => u).release (t.children.flatMap discard)
  have hrespond : e.respond (.morph t.label v) = .ok (.ok (.done, e')) := by
    rw [respond, morph, live_of_fill he hfill]
    rfl
  obtain ⟨hrun, hwhole⟩ := run_of_respond (o := .morph t.label v) he (List.forall_mem_nil _) hrespond
  refine ⟨_, hrun, orderly_arena hwhole, ?_⟩
  refine changes_of_fill (u := u) he hwhole hfill (forest_update he hfill _) rfl (fun w hw => ?_) fun i hi => ?_
  · by_cases hwt : w = t
    · exact .inr (.inl ⟨hwt, rfl⟩)
    · refine .inl ⟨(below_of_fill he hfill).mpr (List.mem_map_of_mem hw), fun hlabel => ?_⟩
      exact label_not_mem_below (nodup_labels_of_node? he (node?_of_fill he hfill)) hw hwt
        (hlabel ▸ w.label_mem_labels)
  · obtain ⟨hbelow, hne⟩ := hi
    have hlabels := (below_of_fill he hfill).mp hbelow
    rw [labels_eq] at hlabels
    obtain ⟨c, hc, hi⟩ := List.mem_flatMap.mp ((List.mem_cons.mp hlabels).resolve_left hne)
    exact Slots.mem_free_release.mpr (.inl (List.mem_flatMap.mpr ⟨c, hc, mem_discard.mpr hi⟩))

theorem swap_faithful (he : e.Whole) {op : BinaryOp} {x y : Id} (hn : e.arena.node? i = some (.binary op x y)) :
    ∃ c, Arena.run (.swap i) e.arena = .ok (.ok .done, c) ∧ c.Orderly ∧ Changes e.arena c i swapped fun _ => False := by
  obtain ⟨h, t, hfill, rfl, hshape⟩ := fill_of_node he hn
  cases t with
  | binary l op a b =>
    have hlive : e.live l = .ok (.binary l op a b) := live_of_fill he hfill
    have hrespond : e.respond (.swap l) = .ok (.ok (.done, e.update l fun _ => .binary l op b a)) := by
      rw [respond, swap, hlive]
      rfl
    obtain ⟨hrun, hwhole⟩ := run_of_respond (o := .swap l) he (List.forall_mem_nil _) hrespond
    exact ⟨_, hrun, orderly_arena hwhole,
      changes_binary he hwhole hfill (forest_update he hfill fun _ => .binary l op b a) rfl fun c => Or.symm⟩
  | _ => cases hshape

theorem setOp_faithful (he : e.Whole) (new : BinaryOp) {op : BinaryOp} {x y : Id}
    (hn : e.arena.node? i = some (.binary op x y)) : ∃ c, Arena.run (.setOp i new) e.arena = .ok (.ok .done, c) ∧
      c.Orderly ∧ Changes e.arena c i (withOp new) fun _ => False := by
  obtain ⟨h, t, hfill, rfl, hshape⟩ := fill_of_node he hn
  cases t with
  | binary l op a b =>
    have hlive : e.live l = .ok (.binary l op a b) := live_of_fill he hfill
    have hrespond : e.respond (.setOp l new) = .ok (.ok (.done, e.update l fun _ => .binary l new a b)) := by
      rw [respond, setOp, hlive]
      rfl
    obtain ⟨hrun, hwhole⟩ := run_of_respond (o := .setOp l new) he (List.forall_mem_nil _) hrespond
    exact ⟨_, hrun, orderly_arena hwhole,
      changes_binary he hwhole hfill (forest_update he hfill fun _ => .binary l new a b) rfl fun c => id⟩
  | _ => cases hshape

theorem collapse_faithful (he : e.Whole) (hfill : e.forest = h.fill t) {p : Id} (hp : e.arena.Under t.label p) :
    ∃ c, Arena.run (.collapse t.label) e.arena = .ok (.ok .done, c) ∧ c.Orderly ∧
      Changes e.arena c p (fun _ => t.term) fun j => e.arena.Below p j ∧ ¬e.arena.Below t.label j := by
  obtain ⟨k, f, rfl, rfl⟩ := exists_frame_of_under he hfill hp
  have houter : e.forest = k.fill (f.fill t) := hfill
  have hnode := node?_of_fill he houter
  have hnodup := nodup_labels_of_node? he hnode
  rw [(f.labels_fill t).nodup_iff, List.nodup_append] at hnodup
  have hlabel : t.label ∉ f.siblings.flatMap labels := fun hmem =>
    hnodup.2.2 _ t.label_mem_labels _ (List.mem_cons_of_mem _ hmem) rfl
  rw [← f.label_fill t]
  let e' : Expr α := (e.update (f.fill t).label fun _ => t).release (discardExcept t.label (f.fill t))
  have hrespond : e.respond (.collapse t.label) = .ok (.ok (.done, e')) := by
    rw [respond, collapse, live_of_fill he hfill, holder_of_fill he hfill]
    rfl
  obtain ⟨hrun, hwhole⟩ := run_of_respond (o := .collapse t.label) he (List.forall_mem_nil _) hrespond
  refine ⟨_, hrun, orderly_arena hwhole, ?_⟩
  refine changes_of_fill he hwhole houter (forest_update he houter fun _ => t) rfl (fun w hw => ?_) fun i hi => ?_
  · by_cases hin : w.label ∈ t.labels
    · have hwt : w ∈ t.preorder :=
        mem_preorder_of_label he (node?_of_fill he hfill) (node?_of_mem_preorder he hnode hw) hin
      refine .inr (.inr ⟨?_, hwt⟩)
      rintro rfl
      rw [f.label_fill] at hin
      exact hnodup.2.2 _ hin _ List.mem_cons_self rfl
    · exact .inl ⟨(below_of_fill he houter).mpr (List.mem_map_of_mem hw),
        fun hbelow => hin ((below_of_fill he hfill).mp hbelow)⟩
  · rw [below_of_fill he houter, below_of_fill he hfill, (f.labels_fill t).mem_iff, List.mem_append] at hi
    refine Slots.mem_free_release.mpr (.inl ?_)
    rw [discardExcept_fill hlabel, List.mem_cons, List.mem_flatMap]
    refine (List.mem_cons.mp (hi.1.resolve_left hi.2)).imp id fun hmem => ?_
    obtain ⟨c, hc, hic⟩ := List.mem_flatMap.mp hmem
    exact ⟨c, List.mem_reverse.mpr hc, mem_discard.mpr hic⟩

theorem unlink_faithful (he : e.Whole) {l : Id} {before after : List (Tree Id α)}
    (hfill : e.forest = h.fill (.list l (before ++ t :: after))) : ∃ c,
    Arena.run (.unlink t.label) e.arena = .ok (.ok (.expr (ofTree t).arena), c) ∧ c.Orderly ∧
      Changes e.arena c l (withoutItem before.length) (e.arena.Below t.label) := by
  let f : Frame Id α := .item l before after
  have hinner : e.forest = (h.push f).fill t := hfill
  have hnode := node?_of_fill he hfill
  have hnodup := nodup_labels_of_node? he hnode
  change (f.fill t).labels.Nodup at hnodup
  rw [(f.labels_fill t).nodup_iff, List.nodup_append] at hnodup
  have hlabel : t.label ∉ f.siblings.flatMap labels := fun hmem =>
    hnodup.2.2 _ t.label_mem_labels _ (List.mem_cons_of_mem _ hmem) rfl
  have hfilter : (before ++ t :: after).filter (·.label ≠ t.label) = before ++ after := filter_fill hlabel
  let e' : Expr α := (e.update l fun _ => .list l (before ++ after)).release t.discard
  have hrespond : e.respond (.unlink t.label) = .ok (.ok (.expr (ofTree t), e')) := by
    rw [respond, unlink, live_of_fill he hinner, holder_of_fill he hinner, show e' =
      (e.update l fun _ => .list l ((before ++ t :: after).filter (·.label ≠ t.label))).release t.discard by
        rw [hfilter]]
    rfl
  obtain ⟨hrun, hwhole⟩ := run_of_respond (o := .unlink t.label) he (List.forall_mem_nil _) hrespond
  refine ⟨_, hrun, orderly_arena hwhole, ?_⟩
  refine changes_of_fill he hwhole hfill (forest_update he hfill fun _ => .list l (before ++ after)) ?_
    (fun w hw => ?_) fun i hi => Slots.mem_free_release.mpr (.inl (mem_discard.mpr ((below_of_fill he hinner).mp hi)))
  · rw [term_list, withoutItem, term_list, List.map_append, List.map_cons, List.map_append,
      List.eraseIdx_append_of_length_le (List.length_map _).le, List.length_map, Nat.sub_self, List.eraseIdx_zero,
      List.tail_cons]
  · by_cases hroot : w = .list l (before ++ t :: after)
    · exact .inr (.inl ⟨hroot, rfl⟩)
    · rw [preorder_eq] at hw
      obtain ⟨c, hc, hwc⟩ := List.mem_flatMap.mp ((List.mem_cons.mp hw).resolve_left hroot)
      have hc' : c = t ∨ c ∈ before ++ after := by
        simpa [Tree.children, or_left_comm] using hc
      rcases hc' with rfl | hc'
      · exact .inl ((below_of_fill he hinner).mpr (List.mem_map_of_mem hwc))
      · exact .inr (.inr ⟨hroot, mem_preorder_of_mem_children hc' hwc⟩)

theorem pass_faithful (he : e.Whole) (p : Pass) : ∃ c,
    Arena.run (.pass p) e.arena = .ok (.ok (.count (p.onTerm e.tree.term).2), c) ∧ c.Orderly ∧
      c.Reads c.root (p.onTerm e.tree.term).1 := by
  obtain ⟨hrun, hwhole⟩ := run_of_respond (o := .pass p) he (List.forall_mem_nil _) rfl
  obtain ⟨hterm, hcount⟩ := p.rewrite_term e
  rw [← hterm, ← hcount]
  exact ⟨_, hrun, orderly_arena hwhole, reads_root hwhole⟩

/-- **On the arena of a whole expression each edit is the edit of trees.** -/
theorem faithful_arena (he : e.Whole) : e.arena.Faithful where
  live i hi := by
    obtain ⟨t, ht⟩ := (live_arena_iff he).mp hi
    exact ⟨t.term, (reads_arena he).mpr ⟨t, ht, rfl⟩⟩
  subtree i w hw := by
    obtain ⟨h, t, hfill, rfl, rfl⟩ := exists_fill_of_reads he hw
    have hrespond : e.respond (.subtree t.label) = .ok (.ok (.expr (ofTree t), e)) := by
      rw [respond, Expr.subtree, nodeAt_of_fill he hfill]
      rfl
    obtain ⟨hrun, -⟩ := run_of_respond (o := .subtree t.label) he (List.forall_mem_nil _) hrespond
    exact ⟨_, hrun, orderly_and_reads_ofTree he hfill⟩
  graft b u hb hu := by
    obtain ⟨f, hf, rfl⟩ := hb.exists_whole
    rw [← tree_of_reads_root hf hu]
    exact graft_faithful he hf
  replace i b w u hw hb hu := by
    obtain ⟨f, hf, rfl⟩ := hb.exists_whole
    obtain ⟨h, t, hfill, rfl, rfl⟩ := exists_fill_of_reads he hw
    rw [← tree_of_reads_root hf hu]
    obtain ⟨c, hrun, hc, hchanges⟩ := replace_faithful he hf hfill
    obtain ⟨horderly, hreads⟩ := orderly_and_reads_ofTree he hfill
    exact ⟨_, c, hrun, horderly, hreads, hc, hchanges⟩
  collapse i p w hw hp := by
    obtain ⟨h, t, hfill, rfl, rfl⟩ := exists_fill_of_reads he hw
    exact collapse_faithful he hfill hp
  unlink i p k items w hw hn hk := by
    obtain ⟨h, s, hfill, rfl, hshape⟩ := fill_of_node he hn
    cases s with
    | list l ts =>
      obtain rfl : ts.map label = items := Node.list.inj hshape
      rw [List.getElem?_map, Option.map_eq_some_iff] at hk
      obtain ⟨t, hk, rfl⟩ := hk
      obtain ⟨hlt, ht⟩ := List.getElem?_eq_some_iff.mp hk
      have hsplit : ts.take k ++ t :: ts.drop (k + 1) = ts := by
        rw [← ht, List.cons_getElem_drop_succ, List.take_append_drop]
      rw [← hsplit] at hfill
      have hinner : e.forest = (h.push (.item l (ts.take k) (ts.drop (k + 1)))).fill t := hfill
      obtain rfl : t.term = w := Except.ok.inj ((reads_of_fill he hinner).symm.trans hw)
      obtain ⟨c, hrun, hc, hchanges⟩ := unlink_faithful he hfill
      rw [List.length_take_of_le (Nat.le_of_lt hlt)] at hchanges
      obtain ⟨horderly, hreads⟩ := orderly_and_reads_ofTree he hinner
      exact ⟨_, c, hrun, horderly, hreads, hc, hchanges⟩
    | _ => cases hshape
  swap i op x y hn := swap_faithful he hn
  setOp i op new x y hn := setOp_faithful he new hn
  morph i v hi := by
    obtain ⟨t, ht⟩ := (live_arena_iff he).mp hi
    obtain ⟨h, hfill, rfl⟩ := exists_fill_of_node? he ht
    exact morph_faithful he hfill v
  pass p w hw := by
    rw [← tree_of_reads_root he hw]
    exact pass_faithful he p

end Expr

namespace Arena

variable [Scalar α] {a : Arena α}

/-- **An arena that is reached is orderly.** -/
theorem orderly_of_reached (ha : a.IsReached) : a.Orderly := by
  obtain ⟨e, he, rfl⟩ := exists_expr ha
  exact Expr.orderly_arena (Expr.whole_of_reached he)

/-- **On an orderly arena each edit is the edit of the trees that are read back.** -/
theorem Orderly.faithful (ha : a.Orderly) : a.Faithful := by
  obtain ⟨e, he, rfl⟩ := ha.exists_whole
  exact Expr.faithful_arena he

/-- After `x + y` lost its sum and its left operand, and the rest was negated: one of the two free slots is used. -/
theorem faithful_of_orderly_negate :
    let a : Arena Double := ⟨#[some ⟨.negate ⟨1⟩, none⟩, some ⟨.var "y", some ⟨0⟩⟩, none], [⟨2⟩], ⟨0⟩⟩
    a.Orderly ∧ a.Faithful := by
  intro a
  have hx : IsReached (⟨#[some ⟨.var "x", none⟩], [], ⟨0⟩⟩ : Arena Double) := .start (.var rfl)
  have hy : IsReached (⟨#[some ⟨.var "y", none⟩], [], ⟨0⟩⟩ : Arena Double) := .start (.var rfl)
  have hsum : IsReached (⟨#[some ⟨.var "x", some ⟨2⟩⟩, some ⟨.var "y", some ⟨2⟩⟩,
      some ⟨.binary .add ⟨0⟩ ⟨1⟩, none⟩], [], ⟨2⟩⟩ : Arena Double) :=
    .next (o := .binary .add _) (List.forall_mem_singleton.mpr hy) hx ⟨_, _, rfl, .inl rfl⟩
  have hrest : IsReached (⟨#[none, some ⟨.var "y", none⟩, none], [⟨0⟩, ⟨2⟩], ⟨1⟩⟩ : Arena Double) :=
    .next (o := .collapse ⟨1⟩) nofun hsum ⟨_, _, rfl, .inl rfl⟩
  have ha : a.Orderly := orderly_of_reached (.next (o := .negate) nofun hrest ⟨_, _, rfl, .inl rfl⟩)
  exact ⟨ha, ha.faithful⟩

end Arena

end SignalFlow
