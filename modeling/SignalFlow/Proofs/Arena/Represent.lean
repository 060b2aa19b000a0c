import Mathlib.Order.WellFoundedSet
import SignalFlow.Proofs.Arena.Run
import SignalFlow.Proofs.Expr.Path

/-!
# Arenas are arenas of expressions

An arena is `Orderly` if it is consistent and every node is an operand of its parent. An orderly arena is the arena of a
whole expression (`Arena.Orderly.exists_whole`), and of no other arenas is there an expression
(`Expr.orderly_arena`). So what is proved of the arenas of whole expressions holds of all orderly arenas, however their
slots were used before.

The trees are found from the leaves upwards (`exists_tree`). A handle occurs in them once, because a node has one parent
and none is above itself.
-/

namespace SignalFlow

open Relation SignalFlow.Tree

variable {α : Type}

namespace Arena

/-- A node is under its parent. -/
abbrev Under (a : Arena α) (c p : Id) : Prop := a.parent? c = some p

/-- **An arena whose parents and operands are the same relation.** -/
structure Orderly (a : Arena α) : Prop extends Consistent a where
  /-- A node is an operand of its parent. -/
  owned : ∀ c p, a.Under c p → c ∈ a.children p

/-- **The nodes of a tree are in the arena**, each at its handle. -/
def Holds (a : Arena α) (t : Tree Id α) : Prop := t.Everywhere fun u => a.node? u.label = some u.shape

variable {a : Arena α} {t u : Tree Id α} {i j : Id}

/-! ## Induction along operands and parents -/

theorem index_lt_of_live (hi : a.IsLive i) : i.index < a.slots.size := by
  rw [IsLive, Arena.node?, Arena.slot?, Option.isSome_map] at hi
  by_contra hge
  rw [Array.getElem?_eq_none (Nat.le_of_not_lt hge)] at hi
  cases hi

theorem finite_live (a : Arena α) : {i | a.IsLive i}.Finite :=
  (Multiset.finite_toSet (handlesBelow a.slots.size)).subset fun _ hi => mem_handlesBelow.mpr (index_lt_of_live hi)

theorem live_of_child (hj : j ∈ a.children i) : a.IsLive i := by
  rw [IsLive]
  rw [Arena.children] at hj
  cases hn : a.node? i with
  | some n => rfl
  | none =>
    rw [hn] at hj
    cases hj

/-- **Induction from the leaves**: along operands one comes to an end. -/
theorem Consistent.operandInduction (h : a.Consistent) {P : Id → Prop}
    (hP : ∀ i, a.IsLive i → (∀ c ∈ a.children i, P c) → P i) (hi : a.IsLive i) : P i := by
  have : IsStrictOrder Id (TransGen a.Under) := { irrefl := h.acyclic, trans := fun _ _ _ => TransGen.trans }
  refine (a.finite_live.wellFoundedOn (r := TransGen a.Under)).induction hi fun i hi ih => hP i hi fun c hc => ?_
  exact ih c (h.operand i c hc).1 (.single (h.operand i c hc).2)

/-- **Induction from the roots**: along parents one comes to an end. -/
theorem Orderly.parentInduction (h : a.Orderly) {P : Id → Prop}
    (hP : ∀ i, a.IsLive i → (∀ p, a.Under i p → P p) → P i) (hi : a.IsLive i) : P i := by
  have : IsStrictOrder Id fun p c => TransGen a.Under c p :=
    { irrefl := h.acyclic, trans := fun _ _ _ hpq hqr => hqr.trans hpq }
  refine (a.finite_live.wellFoundedOn (r := fun p c => TransGen a.Under c p)).induction hi fun i hi ih =>
    hP i hi fun p hp => ?_
  exact ih p (live_of_child (h.owned i p hp)) (.single hp)

/-! ## Trees in an arena -/

theorem Holds.root (ht : a.Holds t) : a.node? t.label = some t.shape := (everywhere_iff.mp ht).1

theorem Holds.child (ht : a.Holds t) (hu : u ∈ t.children) : a.Holds u := (everywhere_iff.mp ht).2 u hu

theorem Holds.children (ht : a.Holds t) : a.children t.label = t.children.map label := by
  rw [Arena.children, ht.root, Option.map_some, Option.getD_some, children_shape]

/-- A tree of a node is made of trees of its operands. -/
theorem exists_tree_of_node {n : Node α} (hn : a.node? i = some n)
    (h : ∀ c ∈ n.children, ∃ t, a.Holds t ∧ t.label = c) : ∃ t, a.Holds t ∧ t.label = i := by
  cases n with
  | literal v => exact ⟨.literal i v, everywhere_literal.mpr hn, rfl⟩
  | var name => exact ⟨.var i name, everywhere_var.mpr hn, rfl⟩
  | infinity => exact ⟨.infinity i, everywhere_infinity.mpr hn, rfl⟩
  | negate c =>
    obtain ⟨t, ht, rfl⟩ := h c (List.mem_singleton_self c)
    exact ⟨.negate i t, everywhere_negate.mpr ⟨hn, ht⟩, rfl⟩
  | binary op b c =>
    obtain ⟨t, ht, rfl⟩ := h b List.mem_cons_self
    obtain ⟨u, hu, rfl⟩ := h c (List.mem_cons_of_mem _ (List.mem_singleton_self c))
    exact ⟨.binary i op t u, everywhere_binary.mpr ⟨hn, ht, hu⟩, rfl⟩
  | list items =>
    obtain ⟨ts, hts, rfl⟩ := Edit.exists_list_map h
    exact ⟨.list i ts, everywhere_list.mpr ⟨hn, hts⟩, rfl⟩

/-- **Every live node is the root of a tree in the arena.** -/
theorem exists_tree (h : a.Consistent) (hi : a.IsLive i) : ∃ t, a.Holds t ∧ t.label = i := by
  refine h.operandInduction (P := fun i => ∃ t, a.Holds t ∧ t.label = i) (fun i hi ih => ?_) hi
  obtain ⟨n, hn⟩ := Option.isSome_iff_exists.mp hi
  refine exists_tree_of_node hn fun c hc => ih c ?_
  rw [Arena.children, hn]
  exact hc

theorem live_of_mem_labels (ht : a.Holds t) (hj : j ∈ t.labels) : a.IsLive j := by
  obtain ⟨u, hu, rfl⟩ := List.mem_map.mp hj
  rw [IsLive, ht u hu]
  rfl

/-- **The nodes of a tree are under its root**, at some distance. -/
theorem under_of_mem_labels (h : a.Consistent) (ht : a.Holds t) (hj : j ∈ t.labels) :
    ReflTransGen a.Under j t.label := by
  induction t using childInduction with
  | h t ih =>
    rw [labels_eq] at hj
    rcases List.mem_cons.mp hj with rfl | hj
    · exact .refl
    · obtain ⟨c, hc, hj⟩ := List.mem_flatMap.mp hj
      refine (ih c hc (ht.child hc) hj).tail (h.operand t.label c.label ?_).2
      rw [ht.children]
      exact List.mem_map_of_mem hc

/-- Of two trees with a common node, the root of one is under the root of the other. -/
theorem under_or_under (h : a.Consistent) (ht : a.Holds t) (hu : a.Holds u) (hjt : j ∈ t.labels)
    (hju : j ∈ u.labels) : ReflTransGen a.Under t.label u.label ∨ ReflTransGen a.Under u.label t.label :=
  ReflTransGen.total_of_right_unique (fun _ _ _ hp hq => Option.some.inj (hp.symm.trans hq))
    (under_of_mem_labels h ht hjt) (under_of_mem_labels h hu hju)

/-- A node is not under another operand of its parent. -/
theorem eq_of_under_sibling (h : a.Consistent) {c d p : Id} (hc : a.Under c p) (hd : a.Under d p)
    (hcd : ReflTransGen a.Under c d) : c = d := by
  rcases hcd.cases_head with rfl | ⟨q, hcq, hqd⟩
  · rfl
  · obtain rfl := Option.some.inj (hc.symm.trans hcq)
    exact absurd (TransGen.tail' hqd hd) (h.acyclic p)

/-- Trees of two operands of one node have no node in common. -/
theorem label_eq_of_common (h : a.Consistent) (ht : a.Holds t) (hu : a.Holds u) {p : Id}
    (htp : a.Under t.label p) (hup : a.Under u.label p) (hjt : j ∈ t.labels) (hju : j ∈ u.labels) :
    t.label = u.label := by
  rcases under_or_under h ht hu hjt hju with htu | hut
  · exact eq_of_under_sibling h htp hup htu
  · exact (eq_of_under_sibling h hup htp hut).symm

/-- **The nodes of a tree in the arena are distinct.** -/
theorem Holds.nodup_labels (h : a.Consistent) (ht : a.Holds t) : t.labels.Nodup := by
  induction t using childInduction with
  | h t ih =>
    have hunder : ∀ c ∈ t.children, a.Under c.label t.label := fun c hc => by
      refine (h.operand t.label c.label ?_).2
      rw [ht.children]
      exact List.mem_map_of_mem hc
    rw [labels_eq, List.nodup_cons, List.nodup_flatMap]
    refine ⟨fun hmem => ?_, fun c hc => ih c hc (ht.child hc), ?_⟩
    · obtain ⟨c, hc, hj⟩ := List.mem_flatMap.mp hmem
      exact h.acyclic t.label (TransGen.tail' (under_of_mem_labels h (ht.child hc) hj) (hunder c hc))
    · refine List.pairwise_iff_getElem.mpr fun m n hm hn hmn => ?_
      intro j hjm hjn
      have hcm := List.getElem_mem hm
      have hcn := List.getElem_mem hn
      have hlabel := label_eq_of_common h (ht.child hcm) (ht.child hcn) (hunder _ hcm) (hunder _ hcn) hjm hjn
      -- one operand at two positions
      have hchild : ∀ k (hk : k < t.children.length), (a.children t.label)[k]? = some t.children[k].label :=
        fun k hk => by rw [ht.children, List.getElem?_map, List.getElem?_eq_getElem hk, Option.map_some]
      have hposition := (h.position _ _ _ m n (hchild m hm) (hlabel ▸ hchild n hn)).2
      omega

/-! ## The forest of an arena -/

/-- The nodes without a parent, the root first. -/
def tops (a : Arena α) : List Id :=
  a.root :: ((List.range a.slots.size).map Id.mk).filter fun i =>
    (a.node? i).isSome && (a.parent? i).isNone && i ≠ a.root

theorem mem_tops (h : a.Consistent) : i ∈ a.tops ↔ a.IsLive i ∧ a.parent? i = none := by
  rw [tops, List.mem_cons, List.mem_filter]
  constructor
  · rintro (rfl | ⟨-, hi⟩)
    · exact ⟨h.root_live, h.root_parent⟩
    · simp only [Bool.and_eq_true, Option.isNone_iff_eq_none] at hi
      exact hi.1
  · rintro ⟨hlive, hparent⟩
    by_cases hroot : i = a.root
    · exact .inl hroot
    · refine .inr ⟨List.mem_map.mpr ⟨i.index, List.mem_range.mpr (index_lt_of_live hlive), rfl⟩, ?_⟩
      rw [IsLive] at hlive
      simp [hlive, hparent, hroot]

theorem nodup_tops (a : Arena α) : a.tops.Nodup := by
  rw [tops, List.nodup_cons]
  refine ⟨fun hmem => by simp at hmem, ?_⟩
  exact (List.nodup_range.map fun _ _ h => congrArg Id.index h).filter _

variable {ts : List (Tree Id α)}

/-- Trees of nodes without a parent have no node in common. -/
theorem nodup_forest (h : a.Consistent) (hts : ∀ t ∈ ts, a.Holds t) (htops : ts.map label = a.tops) :
    (ts.flatMap labels).Nodup := by
  have hdistinct : ts.Pairwise fun t u => t.label ≠ u.label := List.pairwise_map.mp (htops ▸ a.nodup_tops)
  have htop : ∀ t ∈ ts, ∀ p, ¬a.Under t.label p := fun t ht p hp => by
    have hmem : t.label ∈ a.tops := htops ▸ List.mem_map_of_mem ht
    rw [Under, ((mem_tops h).mp hmem).2] at hp
    cases hp
  have hstay : ∀ t ∈ ts, ∀ j, ReflTransGen a.Under t.label j → t.label = j := fun t ht j hj => by
    rcases hj.cases_head with heq | ⟨p, hp, -⟩
    · exact heq
    · exact absurd hp (htop t ht p)
  refine List.nodup_flatMap.mpr ⟨fun t ht => (hts t ht).nodup_labels h, hdistinct.imp_of_mem ?_⟩
  intro t u ht hu hne j hjt hju
  rcases under_or_under h (hts t ht) (hts u hu) hjt hju with htu | hut
  · exact hne (hstay t ht _ htu)
  · exact hne (hstay u hu _ hut).symm

/-- **Every live node is in the tree of a node without a parent.** -/
theorem mem_forest (h : a.Orderly) (hts : ∀ t ∈ ts, a.Holds t) (htops : ts.map label = a.tops) :
    i ∈ ts.flatMap labels ↔ a.IsLive i := by
  constructor
  · intro hi
    obtain ⟨t, ht, hi⟩ := List.mem_flatMap.mp hi
    exact live_of_mem_labels (hts t ht) hi
  · intro hi
    refine h.parentInduction (P := fun i => i ∈ ts.flatMap labels) (fun i hi ih => ?_) hi
    cases hp : a.parent? i with
    | none =>
      have hmem : i ∈ ts.map label := htops ▸ (mem_tops h.toConsistent).mpr ⟨hi, hp⟩
      obtain ⟨t, ht, rfl⟩ := List.mem_map.mp hmem
      exact List.mem_flatMap.mpr ⟨t, ht, t.label_mem_labels⟩
    | some p =>
      obtain ⟨t, ht, hpt⟩ := List.mem_flatMap.mp (ih p hp)
      obtain ⟨u, hu, rfl⟩ := List.mem_map.mp hpt
      have hchild := h.owned i u.label hp
      rw [Arena.children, hts t ht u hu, Option.map_some, Option.getD_some, children_shape] at hchild
      obtain ⟨c, hc, rfl⟩ := List.mem_map.mp hchild
      have hct := mem_preorder_trans hu (mem_preorder_of_mem_children hc c.self_mem_preorder)
      exact List.mem_flatMap.mpr ⟨t, ht, List.mem_map_of_mem hct⟩

/-- If the nodes of an expression are those of an arena, it is whole. -/
theorem whole_of_live (h : a.Consistent) {e : Expr α} (hslots : e.slots = ⟨a.free, a.slots.size⟩)
    (hnodup : (e.forest.flatMap labels).Nodup) (hmem : ∀ i, i ∈ e.forest.flatMap labels ↔ a.IsLive i) : e.Whole := by
  have hlive : ∀ i, a.IsLive i ↔ a.slot? i ≠ none := fun i => by
    rw [IsLive, Arena.node?, Option.isSome_map, Option.isSome_iff_ne_none]
  have hdisjoint : Disjoint (a.free : Multiset Id) (e.forest.flatMap labels : Multiset Id) :=
    Multiset.disjoint_left.mpr fun hfree hi => (hlive _).mp ((hmem _).mp hi) ((h.mem_free _).mp hfree).2
  have hall : ((a.free : Multiset Id) + (e.forest.flatMap labels : Multiset Id)) = handlesBelow a.slots.size := by
    have hadd := Multiset.nodup_add.mpr ⟨Multiset.coe_nodup.mpr h.free_nodup, Multiset.coe_nodup.mpr hnodup, hdisjoint⟩
    refine (Multiset.Nodup.ext hadd (nodup_handlesBelow _)).mpr fun i => ?_
    rw [Multiset.mem_add, Multiset.mem_coe, Multiset.mem_coe, hmem, h.mem_free, mem_handlesBelow]
    constructor
    · rintro (hfree | hi)
      · exact hfree.1
      · exact index_lt_of_live hi
    · intro hlt
      by_cases hslot : a.slot? i = none
      · exact .inl ⟨hlt, hslot⟩
      · exact .inr ((hlive i).mpr hslot)
  rw [← e.keys_layout] at hall
  change (e.slots.free : Multiset Id) + _ = handlesBelow e.slots.size
  rw [hslots]
  exact hall

/-- The slot of a node of the forest. -/
theorem slot?_of_fill (h : a.Consistent) (hts : ∀ t ∈ ts, a.Holds t) (htops : ts.map label = a.tops)
    {k : Hole Id α} (hfill : k.fill t = ts) : a.slot? t.label = some ⟨t.shape, k.parent?⟩ := by
  have hholds : ∀ u ∈ (k.fill t).flatMap preorder, a.node? u.label = some u.shape := fun u hu => by
    rw [hfill] at hu
    obtain ⟨r, hr, hu⟩ := List.mem_flatMap.mp hu
    exact hts r hr u hu
  have hnode := hholds t (k.mem_preorder_fill t)
  have hparent : a.parent? t.label = k.parent? := by
    obtain ⟨frames, before, after⟩ := k
    cases frames with
    | nil =>
      have hmem : t.label ∈ a.tops := by
        rw [← htops, ← hfill]
        exact List.mem_map_of_mem (List.mem_append_right _ List.mem_cons_self)
      exact ((mem_tops h).mp hmem).2
    | cons f fs =>
      have houter := hholds (f.fill t) (Hole.mem_preorder_fill ⟨fs, before, after⟩ (f.fill t))
      refine (h.operand f.label t.label ?_).2
      rw [f.label_fill] at houter
      rw [Arena.children, houter, Option.map_some, Option.getD_some, children_shape, f.children_fill]
      simp
  rw [Arena.node?] at hnode
  rw [Arena.parent?] at hparent
  cases hslot : a.slot? t.label with
  | none =>
    rw [hslot] at hnode
    cases hnode
  | some c =>
    rw [hslot, Option.map_some, Option.some.injEq] at hnode
    rw [hslot, Option.bind_some] at hparent
    rw [← hnode, ← hparent]

/-- **An orderly arena is the arena of a whole expression.** -/
theorem Orderly.exists_whole (h : a.Orderly) : ∃ e : Expr α, e.Whole ∧ e.arena = a := by
  obtain ⟨ts, hts, htops⟩ : ∃ ts : List (Tree Id α), (∀ t ∈ ts, a.Holds t) ∧ ts.map label = a.tops :=
    Edit.exists_list_map fun i hi => exists_tree h.toConsistent ((mem_tops h.toConsistent).mp hi).1
  cases ts with
  | nil => cases htops
  | cons t ts =>
    let e : Expr α := ⟨t, ts, ⟨a.free, a.slots.size⟩⟩
    have hnodup : (e.forest.flatMap labels).Nodup := nodup_forest h.toConsistent hts htops
    have hmem : ∀ i, i ∈ e.forest.flatMap labels ↔ a.IsLive i := fun i => mem_forest h hts htops
    have hwhole : e.Whole := whole_of_live h.toConsistent rfl hnodup hmem
    refine ⟨e, hwhole, (Expr.eq_arena hwhole ⟨hwhole, rfl, rfl, (List.cons.inj htops).1.symm, fun i c => ?_⟩).symm⟩
    by_cases hi : i ∈ e.forest.flatMap labels
    · obtain ⟨k, u, hfill, rfl⟩ := Hole.exists_fill hi
      have hcell := Expr.cell_of_fill hfill.symm
      rw [slot?_of_fill h.toConsistent hts htops hfill, Option.some.injEq]
      constructor
      · rintro rfl
        exact hcell
      · exact fun hc => Layout.Whole.cell_unique hwhole hcell hc
    · constructor
      · intro hc
        refine absurd ((hmem i).mpr ?_) hi
        rw [IsLive, Arena.node?, hc]
        rfl
      · exact fun hc => absurd (Expr.mem_labels_of_cell hc) hi

end Arena

/-- **The arena of a whole expression is orderly.** -/
theorem Expr.orderly_arena {e : Expr α} (he : e.Whole) : e.arena.Orderly := by
  refine ⟨consistent_arena he, fun c p hp => ?_⟩
  rcases e.dead_or_fills c with ⟨-, hdead⟩ | ⟨⟨frames, before, after⟩, t, hfill, rfl⟩
  · rw [Arena.Under, Arena.parent?, (shows_arena he).slot?_eq_none hdead] at hp
    cases hp
  · rw [Arena.Under, parent?_arena he hfill] at hp
    cases frames with
    | nil => cases hp
    | cons f fs =>
      cases hp
      have houter : e.forest = Hole.fill ⟨fs, before, after⟩ (f.fill t) := hfill
      rw [← f.label_fill t, children_arena he houter, f.children_fill]
      simp

end SignalFlow
