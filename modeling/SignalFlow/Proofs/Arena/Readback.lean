import SignalFlow.Proofs.Arena.Represent

/-!
# Reading trees back

The tree below a node of an arena is read back by `Arena.termFrom`; `Reads` says what it is. On the arena of a whole
expression the nodes that can be read are the nodes of the expression, with their trees (`Expr.reads_arena`).

`Changes a b c g gone` says that of all the trees of `a` only those with the node `c` are others in `b`: they are
changed by `g` at the place of `c` and nowhere else, and that the nodes that are gone are dead. It holds of the arenas
of two expressions of which the forests differ in what fills one hole (`Expr.changes_of_fill`).
-/

namespace SignalFlow

open SignalFlow.Tree

variable {α : Type}

namespace Arena

/-- **The tree of a node.** -/
def Reads (a : Arena α) (i : Id) (t : Term α) : Prop := a.termFrom i = .ok t

/-- **The node at the end of a path**, by numbers of operands. -/
def follow (a : Arena α) : Id → List Nat → Option Id
  | i, [] => some i
  | i, k :: ks => (a.children i)[k]?.bind (a.follow · ks)

/-- A node is at or below another. -/
def Below (a : Arena α) (i j : Id) : Prop := ∃ ks, a.follow i ks = some j

/-- **A tree is changed at the place of a node**, if the node is in it, and is the same otherwise. -/
structure ChangesTree (a b : Arena α) (c : Id) (g : Term α → Term α) (i j : Id) : Prop where
  above : ∀ t ks, a.Reads i t → a.follow i ks = some c → b.Reads j (t.modifyAt ks g)
  aside : ∀ t, a.Reads i t → ¬a.Below i c → b.Reads j t

/-- **One node is changed**: the tree of the root, and of every node that is not gone, is changed at the place of the
node and nowhere else. -/
structure Changes (a b : Arena α) (c : Id) (g : Term α → Term α) (gone : Id → Prop) : Prop where
  root : ChangesTree a b c g a.root b.root
  node : ∀ i, ¬gone i → ChangesTree a b c g i i
  dead : ∀ i, gone i → ¬b.IsLive i

end Arena

namespace Expr

open Arena

variable {e e' : Expr α} {h : Hole Id α} {t u : Tree Id α} {i j : Id} {ks : List Nat}

/-! ## Nodes of an expression -/

/-- **The nodes of an expression** are those of its trees. -/
theorem node?_eq_some_iff (he : e.Whole) : e.node? i = some t ↔ t ∈ e.forest.flatMap preorder ∧ t.label = i := by
  have hfind : e.node? i = (e.forest.flatMap preorder).find? (·.label = i) := by
    rw [List.find?_flatMap]
    rfl
  rw [hfind]
  constructor
  · exact fun ht => ⟨List.mem_of_find?_eq_some ht, by simpa using List.find?_some ht⟩
  · rintro ⟨ht, rfl⟩
    refine find?_eq_of_nodup ht (decide_eq_true rfl) fun u hu hlabel => ?_
    have hmap : ((e.forest.flatMap preorder).map label).Nodup := by
      rw [List.map_flatMap]
      exact he.nodup_labels
    exact List.inj_on_of_nodup_map hmap hu ht (of_decide_eq_true hlabel)

theorem sits_of_node? (he : e.Whole) (ht : e.node? i = some t) : e.layout.Sits t := by
  rcases e.dead_or_fills i with ⟨hnone, -⟩ | ⟨k, u, hfill, rfl⟩
  · rw [hnone] at ht
    cases ht
  · rw [node?_of_fill he hfill] at ht
    cases ht
    exact sits_of_fill hfill

/-- What is below a node is a node. -/
theorem node?_of_mem_preorder (he : e.Whole) (ht : e.node? i = some t) (hu : u ∈ t.preorder) :
    e.node? u.label = some u := by
  obtain ⟨r, hr, ht⟩ := List.mem_flatMap.mp ((node?_eq_some_iff he).mp ht).1
  exact (node?_eq_some_iff he).mpr ⟨List.mem_flatMap.mpr ⟨r, hr, mem_preorder_trans ht hu⟩, rfl⟩

theorem nodup_labels_of_node? (he : e.Whole) (ht : e.node? i = some t) : t.labels.Nodup :=
  Layout.Whole.nodup_labels he (sits_of_node? he ht)

/-- **The nodes that can be read are the nodes of the expression**, with their trees. -/
theorem reads_arena (he : e.Whole) {w : Term α} : e.arena.Reads i w ↔ ∃ t, e.node? i = some t ∧ t.term = w := by
  rcases e.dead_or_fills i with ⟨hnone, hdead⟩ | ⟨k, t, hfill, rfl⟩
  · constructor
    · intro hread
      rw [Reads, termFrom, limit, termLoop, node?_arena_of_dead he hdead] at hread
      cases hread
    · rintro ⟨t, ht, -⟩
      rw [hnone] at ht
      cases ht
  · rw [Reads, termFrom_eq (shows_arena he) (sits_of_fill hfill), node?_of_fill he hfill]
    constructor
    · intro heq
      exact ⟨t, rfl, Except.ok.inj heq⟩
    · rintro ⟨u, hu, rfl⟩
      rw [Option.some.inj hu]

theorem live_arena_iff (he : e.Whole) : e.arena.IsLive i ↔ ∃ t, e.node? i = some t := by
  constructor
  · intro hi
    obtain ⟨k, t, hfill, rfl⟩ := fills_of_live he hi
    exact ⟨t, node?_of_fill he hfill⟩
  · rintro ⟨t, ht⟩
    rw [IsLive]
    obtain ⟨-, rfl⟩ := (node?_eq_some_iff he).mp ht
    rw [(shows_arena he).node_tree (sits_of_node? he ht)]
    rfl

/-- A path in the arena is the path in the tree. -/
theorem follow_arena (he : e.Whole) (ht : e.node? i = some t) (ks : List Nat) :
    e.arena.follow i ks = (t.at? ks).map label := by
  induction ks generalizing i t with
  | nil => rw [follow, at?, Option.map_some, ((node?_eq_some_iff he).mp ht).2]
  | cons k ks ih =>
    obtain ⟨-, rfl⟩ := (node?_eq_some_iff he).mp ht
    rw [follow, at?, (shows_arena he).children_tree (sits_of_node? he ht), List.getElem?_map]
    cases hc : t.children[k]? with
    | none => rfl
    | some c =>
      exact ih (node?_of_mem_preorder he ht
        (mem_preorder_of_mem_children (List.mem_of_getElem? hc) c.self_mem_preorder))

theorem below_arena (he : e.Whole) (ht : e.node? i = some t) : e.arena.Below i j ↔ j ∈ t.labels := by
  constructor
  · rintro ⟨ks, hks⟩
    rw [follow_arena he ht] at hks
    obtain ⟨u, hu, rfl⟩ := Option.map_eq_some_iff.mp hks
    exact List.mem_map_of_mem (mem_preorder_of_at? hu)
  · intro hj
    obtain ⟨u, hu, rfl⟩ := List.mem_map.mp hj
    obtain ⟨ks, hks⟩ := exists_at? hu
    exact ⟨ks, by rw [follow_arena he ht, hks, Option.map_some]⟩

theorem node?_root (he : e.Whole) : e.node? e.arena.root = some e.tree :=
  (node?_eq_some_iff he).mpr ⟨List.mem_flatMap.mpr ⟨e.tree, List.mem_cons_self, e.tree.self_mem_preorder⟩, rfl⟩

/-- A node with a label of a tree is a node of the tree. -/
theorem mem_preorder_of_label (he : e.Whole) (ht : e.node? i = some t) (hu : e.node? j = some u) (hj : j ∈ t.labels) :
    u ∈ t.preorder := by
  obtain ⟨w, hw, rfl⟩ := List.mem_map.mp hj
  have hnode := node?_of_mem_preorder he ht hw
  rw [hu] at hnode
  exact Option.some.inj hnode ▸ hw

/-! ## One node changed -/

/-- The label of a root does not occur below it. -/
theorem label_not_mem_below (hnodup : t.labels.Nodup) (hu : u ∈ t.preorder) (hne : u ≠ t) : t.label ∉ u.labels := by
  rw [labels_eq, List.nodup_cons] at hnodup
  rw [preorder_eq] at hu
  obtain ⟨c, hc, hu⟩ := List.mem_flatMap.mp ((List.mem_cons.mp hu).resolve_left hne)
  intro hlabel
  obtain ⟨w, hw, hwt⟩ := List.mem_map.mp hlabel
  exact hnodup.1 (List.mem_flatMap.mpr ⟨c, hc, hwt ▸ List.mem_map_of_mem (mem_preorder_trans hu hw)⟩)

/-- Nothing is said of a dead node. -/
theorem changesTree_of_dead (he : e.Whole) {a : Arena α} {c : Id} {g : Term α → Term α} (hi : e.node? i = none) :
    ChangesTree e.arena a c g i j := by
  have hread : ∀ w, ¬e.arena.Reads i w := fun w hread => by
    obtain ⟨t, ht, -⟩ := (reads_arena he).mp hread
    rw [hi] at ht
    cases ht
  exact ⟨fun w _ h => absurd h (hread w), fun w h => absurd h (hread w)⟩

/-- **A changed tree**, read back. -/
theorem changesTree_of_update (he : e.Whole) (he' : e'.Whole) {c : Tree Id α} {g : Term α → Term α}
    {f : Tree Id α → Tree Id α} (hc : e.node? c.label = some c) (hf : (f c).term = g c.term)
    (hi : e.node? i = some t) (hj : e'.node? j = some (t.update c.label f)) :
    ChangesTree e.arena e'.arena c.label g i j := by
  refine ⟨fun w ks hread hfollow => ?_, fun w hread hbelow => ?_⟩
  all_goals
    obtain ⟨u, hu, rfl⟩ := (reads_arena he).mp hread
    obtain rfl := Option.some.inj (hi.symm.trans hu)
    refine (reads_arena he').mpr ⟨_, hj, ?_⟩
  · rw [follow_arena he hi] at hfollow
    obtain ⟨u, hat, hlabel⟩ := Option.map_eq_some_iff.mp hfollow
    have hcu : u = c := by
      have hnode := node?_of_mem_preorder he hi (mem_preorder_of_at? hat)
      rw [hlabel, hc] at hnode
      exact (Option.some.inj hnode).symm
    subst hcu
    rw [update_at (nodup_labels_of_node? he hi) hat, term_modifyAt hat hf]
  · rw [below_arena he hi] at hbelow
    rw [update_of_not_mem f hbelow]

/-- **Two expressions of which the forests differ in what fills one hole.** A node of the old filling is gone, or is the
root that is changed, or is below it and has its old tree. -/
theorem changes_of_fill (he : e.Whole) (he' : e'.Whole) (hfill : e.forest = h.fill t) (hfill' : e'.forest = h.fill u)
    {g : Term α → Term α} {gone : Id → Prop} (hg : g t.term = u.term)
    (hkept : ∀ w ∈ t.preorder, gone w.label ∨ (w = t ∧ u.label = t.label) ∨ (w ≠ t ∧ w ∈ u.preorder))
    (hgone : ∀ i, gone i → i ∈ e'.slots.free) : Changes e.arena e'.arena t.label g gone := by
  have ht := node?_of_fill he hfill
  let f : Tree Id α → Tree Id α := fun _ => u
  have hupdate : e'.forest = updateAll t.label f e.forest := by
    rw [hfill', hfill, Hole.update_fill (Hole.not_mem_labels (hfill ▸ he.nodup_labels) t.label_mem_labels)]
  have hchange : ∀ {i j w}, e.node? i = some w → e'.node? j = some (w.update t.label f) →
      ChangesTree e.arena e'.arena t.label g i j := changesTree_of_update he he' ht hg.symm
  refine ⟨hchange (node?_root he) ?_, fun i hi => ?_, fun i hi hlive => ?_⟩
  · rw [← (List.cons.inj hupdate).1]
    exact node?_root he'
  · cases hw : e.node? i with
    | none => exact changesTree_of_dead he hw
    | some w =>
      refine hchange hw ?_
      obtain ⟨hmem, rfl⟩ := (node?_eq_some_iff he).mp hw
      by_cases hin : w.label ∈ t.labels
      · have hwt := mem_preorder_of_label he ht hw hin
        rcases hkept w hwt with hgone | ⟨rfl, hlabel⟩ | ⟨hne, hwu⟩
        · exact absurd hgone hi
        · rw [update_label, ← hlabel]
          exact node?_of_fill he' hfill'
        · rw [update_of_not_mem f (label_not_mem_below (nodup_labels_of_node? he ht) hwt hne)]
          exact node?_of_mem_preorder he' (node?_of_fill he' hfill') hwu
      · refine (node?_eq_some_iff he').mpr ⟨?_, ?_⟩
        · obtain ⟨r, hr, hwr⟩ := List.mem_flatMap.mp hmem
          rw [hupdate, updateAll_eq]
          refine List.mem_flatMap.mpr ⟨_, List.mem_map_of_mem hr, mem_preorder_update f hwr fun x hx hlabel hwx => ?_⟩
          have hxnode := (node?_eq_some_iff he).mpr ⟨List.mem_flatMap.mpr ⟨r, hr, hx⟩, hlabel⟩
          obtain rfl := Option.some.inj (hxnode.symm.trans ht)
          exact hin (List.mem_map_of_mem hwx)
        · exact (children_update (fun hlabel => hin (hlabel ▸ t.label_mem_labels)) f).2
  · have hslot := ((mem_free_iff he' i).mp (hgone i hi)).2
    rw [IsLive, Arena.node?, hslot] at hlive
    cases hlive

end Expr

end SignalFlow
