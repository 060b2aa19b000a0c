import SignalFlow.Proofs.Arena.Layout
import SignalFlow.Proofs.Expr.Walk

/-!
# Trees in an arena

A tree takes one cell for each node: its shape, which is the node with the labels of its operands, and the label of the
node above (`cells`). A tree sits in a layout if its cells are there (`Sits`). Walks are said of trees: a walk from the
label of a tree that sits there lists its labels (`preorderLoop_eq`, `postorderLoop_eq`).
-/

namespace SignalFlow

open Arena

variable {ι α β : Type}

/-! ## Cells -/

namespace Tree

/-- The root with the labels of its operands. -/
def shape : Tree Id α → Node α
  | .literal _ v => .literal v
  | .var _ name => .var name
  | .infinity _ => .infinity
  | .negate _ t => .negate t.label
  | .binary _ op a b => .binary op a.label b.label
  | .list _ items => .list (items.map label)

theorem children_shape (t : Tree Id α) : t.shape.children = t.children.map label := by
  cases t <;> rfl

mutual

/-- **The cells of a tree** below a parent. -/
def cells : Option Id → Tree Id α → Multiset (Id × Cell α)
  | p, .literal l v => {(l, ⟨.literal v, p⟩)}
  | p, .var l name => {(l, ⟨.var name, p⟩)}
  | p, .infinity l => {(l, ⟨.infinity, p⟩)}
  | p, .negate l t => {(l, ⟨.negate t.label, p⟩)} + t.cells (some l)
  | p, .binary l op a b => {(l, ⟨.binary op a.label b.label, p⟩)} + (a.cells (some l) + b.cells (some l))
  | p, .list l items => {(l, ⟨.list (items.map label), p⟩)} + cellsAll (some l) items

/-- The cells of several trees below one parent. -/
def cellsAll : Option Id → List (Tree Id α) → Multiset (Id × Cell α)
  | _, [] => 0
  | p, t :: ts => t.cells p + cellsAll p ts

end

/-- **The cells of a tree**: that of the root, and those of the children below it. -/
theorem cells_eq (p : Option Id) (t : Tree Id α) :
    t.cells p = {(t.label, ⟨t.shape, p⟩)} + cellsAll (some t.label) t.children := by
  cases t <;> simp [cells, cellsAll, label, shape, children]

theorem cells_binary (p : Option Id) (l : Id) (op : BinaryOp) (a b : Tree Id α) :
    (Tree.binary l op a b).cells p =
      {(l, ⟨.binary op a.label b.label, p⟩)} + (a.cells (some l) + b.cells (some l)) := rfl

theorem cellsAll_append (p : Option Id) (ts us : List (Tree Id α)) :
    cellsAll p (ts ++ us) = cellsAll p ts + cellsAll p us := by
  induction ts with
  | nil => simp [cellsAll]
  | cons t ts ih => rw [List.cons_append, cellsAll, cellsAll, ih, add_assoc]

theorem cells_le_cellsAll (p : Option Id) {t : Tree Id α} {ts : List (Tree Id α)} (ht : t ∈ ts) :
    t.cells p ≤ cellsAll p ts := by
  obtain ⟨before, after, rfl⟩ := List.append_of_mem ht
  rw [cellsAll_append, cellsAll]
  exact Multiset.le_iff_exists_add.mpr ⟨cellsAll p before + cellsAll p after, by abel⟩

theorem keys_cellsAll_of {p : Option Id} {ts : List (Tree Id α)}
    (h : ∀ t ∈ ts, (t.cells p).map Prod.fst = (t.labels : Multiset Id)) :
    (cellsAll p ts).map Prod.fst = (ts.flatMap labels : Multiset Id) := by
  induction ts with
  | nil => rfl
  | cons t ts ih =>
    rw [cellsAll, Multiset.map_add, h t List.mem_cons_self, ih fun u hu => h u (List.mem_cons_of_mem _ hu),
      List.flatMap_cons, Multiset.coe_add]

/-- The handles of the cells are the labels. -/
theorem keys_cells (p : Option Id) (t : Tree Id α) : (t.cells p).map Prod.fst = (t.labels : Multiset Id) := by
  induction t using childInduction generalizing p with
  | h t ih =>
    rw [cells_eq, Multiset.map_add, Multiset.map_singleton, keys_cellsAll_of fun c hc => ih c hc _, labels_eq,
      Multiset.singleton_add, Multiset.cons_coe]

theorem keys_cellsAll (p : Option Id) (ts : List (Tree Id α)) :
    (cellsAll p ts).map Prod.fst = (ts.flatMap labels : Multiset Id) :=
  keys_cellsAll_of fun t _ => t.keys_cells p

theorem card_cells (p : Option Id) (t : Tree Id α) : Multiset.card (t.cells p) = t.size := by
  rw [← Multiset.card_map Prod.fst, keys_cells, Multiset.coe_card, length_labels]

/-- The cells of trees, each with its parent. -/
def cellsEach : List (Option Id × Tree Id α) → Multiset (Id × Cell α)
  | [] => 0
  | u :: us => u.2.cells u.1 + cellsEach us

theorem cellsEach_map (p : Option Id) (ts : List (Tree Id α)) : cellsEach (ts.map fun t => (p, t)) = cellsAll p ts := by
  induction ts with
  | nil => rfl
  | cons t ts ih => rw [List.map_cons, cellsEach, cellsAll, ih]

end Tree

namespace Arena

open SignalFlow.Tree

variable {s : Slots} {r i : Id} {p q : Option Id} {n : Node α} {C : Multiset (Id × Cell α)} {l : Layout α}

/-! ## Parents -/

theorem setParent_tree (t : Tree Id α) (p q : Option Id) :
    Does (setParent t.label q) ⟨s, r, t.cells p + C⟩ (.ok ()) ⟨s, r, t.cells q + C⟩ := by
  rw [cells_eq p, cells_eq q, add_assoc, add_assoc]
  exact setParent_does q

theorem setParents_does (q : Option Id) (us : List (Option Id × Tree Id α)) :
    Does (setParents q (us.map (·.2.label))) ⟨s, r, cellsEach us + C⟩ (.ok ())
      ⟨s, r, cellsAll q (us.map (·.2)) + C⟩ := by
  induction us generalizing C with
  | nil => exact Does.pure ()
  | cons u us ih =>
    obtain ⟨p, t⟩ := u
    have hfirst : Does (setParent t.label q) ⟨s, r, t.cells p + (cellsEach us + C)⟩ (.ok ())
        ⟨s, r, t.cells q + (cellsEach us + C)⟩ := setParent_tree t p q
    have hrest : Does (setParents q (us.map (·.2.label))) ⟨s, r, cellsEach us + (t.cells q + C)⟩ (.ok ())
        ⟨s, r, cellsAll q (us.map (·.2)) + (t.cells q + C)⟩ := ih
    rw [add_left_comm, add_left_comm (cellsAll q _), ← add_assoc (t.cells q) (cellsAll q _)] at hrest
    rw [← add_assoc] at hfirst
    exact hfirst.bind hrest

theorem adopt_does (us : List (Option Id × Tree Id α)) (hn : n.children = us.map (·.2.label)) :
    Does (adopt i) ⟨s, r, {(i, ⟨n, p⟩)} + (cellsEach us + C)⟩ (.ok ())
      ⟨s, r, {(i, ⟨n, p⟩)} + (cellsAll (some i) (us.map (·.2)) + C)⟩ := by
  refine (nodeAt_does (c := ⟨n, p⟩) (Multiset.mem_add.mpr (.inl (Multiset.mem_singleton_self _)))).bind ?_
  rw [hn, add_left_comm, add_left_comm {(i, _)}]
  exact setParents_does (some i) us

/-- Overwriting a node whose new operands sit there. -/
theorem rewire_does {m : Node α} (us : List (Option Id × Tree Id α)) (hn : n.children = us.map (·.2.label)) :
    Does (rewire i n) ⟨s, r, {(i, ⟨m, p⟩)} + (cellsEach us + C)⟩ (.ok ())
      ⟨s, r, {(i, ⟨n, p⟩)} + (cellsAll (some i) (us.map (·.2)) + C)⟩ :=
  (setNode_does n).bind (adopt_does us hn)

/-- **Making a node above trees that sit there.** -/
theorem alloc_each {t : Tree Id α} (hlabel : t.label = s.take.1) (us : List (Option Id × Tree Id α))
    (hus : us.map (·.2) = t.children) :
    Does (alloc t.shape) ⟨s, r, cellsEach us + C⟩ (.ok t.label) ⟨s.take.2, r, t.cells none + C⟩ := by
  have hchildren : t.shape.children = us.map (·.2.label) := by
    rw [children_shape, ← hus, List.map_map]
    rfl
  have hadopt := adopt_does (s := s.take.2) (r := r) (i := t.label) (p := none) (C := C) us hchildren
  have hoccupy := occupy_does (s := s) (r := r) (C := cellsEach us + C) t.shape
  rw [hus] at hadopt
  rw [← hlabel] at hoccupy
  rw [cells_eq, add_assoc]
  exact hoccupy.bind (hadopt.bind (Does.pure _))

/-- Making a node above trees that are no operands yet. -/
theorem alloc_tree {t : Tree Id α} (hlabel : t.label = s.take.1) :
    Does (alloc t.shape) ⟨s, r, cellsAll none t.children + C⟩ (.ok t.label) ⟨s.take.2, r, t.cells none + C⟩ := by
  rw [← cellsEach_map]
  refine alloc_each hlabel _ ?_
  rw [List.map_map]
  exact List.map_id _

/-! ## Walks -/

/-- A tree whose cells are in a layout. -/
def Layout.Sits (l : Layout α) (t : Tree Id α) : Prop := ∃ p, t.cells p ≤ l.cells

namespace Layout.Sits

variable {t c : Tree Id α}

theorem of_add (t : Tree Id α) (p : Option Id) : Sits ⟨s, r, t.cells p + C⟩ t :=
  ⟨p, Multiset.le_add_right _ _⟩

theorem child (h : l.Sits t) (hc : c ∈ t.children) : l.Sits c := by
  obtain ⟨p, hp⟩ := h
  rw [cells_eq] at hp
  exact ⟨some t.label, ((cells_le_cellsAll _ hc).trans (Multiset.le_add_left _ _)).trans hp⟩

theorem below {u : Tree Id α} (h : l.Sits t) (hu : u ∈ t.preorder) : l.Sits u := by
  induction t using childInduction with
  | h t ih =>
    rw [preorder_eq] at hu
    rcases List.mem_cons.mp hu with rfl | hu
    · exact h
    · obtain ⟨c, hc, hu⟩ := List.mem_flatMap.mp hu
      exact ih c hc (h.child hc) hu

theorem root (h : l.Sits t) : ∃ p, (t.label, ⟨t.shape, p⟩) ∈ l.cells := by
  obtain ⟨p, hp⟩ := h
  rw [cells_eq] at hp
  exact ⟨p, Multiset.mem_of_le hp (Multiset.mem_add.mpr (.inl (Multiset.mem_singleton_self _)))⟩

end Layout.Sits

variable {a : Arena α}

theorem Shows.node_tree (h : Shows a l) {t : Tree Id α} (ht : l.Sits t) : a.node? t.label = some t.shape := by
  obtain ⟨p, hp⟩ := ht.root
  exact h.node? hp

theorem Shows.children_tree (h : Shows a l) {t : Tree Id α} (ht : l.Sits t) :
    a.children t.label = t.children.map label := by
  obtain ⟨p, hp⟩ := ht.root
  rw [h.children hp, children_shape]

/-- There are at least as many slots as nodes of a tree. -/
theorem Layout.Whole.size_le (h : l.Whole) {t : Tree Id α} (ht : l.Sits t) : t.size ≤ l.slots.size := by
  obtain ⟨p, hp⟩ := ht
  have hle := Multiset.card_le_card hp
  rw [card_cells] at hle
  have hcard := h.card
  omega

theorem Shows.size_lt_limit (h : Shows a l) {t : Tree Id α} (ht : l.Sits t) : t.size < a.limit := by
  rw [limit, h.size]
  exact Nat.lt_succ_of_le (h.whole.size_le ht)

/-- The labels of a tree that sits in a layout are distinct. -/
theorem Layout.Whole.nodup_labels (hl : l.Whole) {t : Tree Id α} (ht : l.Sits t) : t.labels.Nodup := by
  obtain ⟨p, hp⟩ := ht
  have hkeys : (l.cells.map Prod.fst).Nodup := (Multiset.nodup_add.mp hl.nodup).2.1
  rw [← Multiset.coe_nodup, ← keys_cells p]
  exact Multiset.nodup_of_le (Multiset.map_le_map hp) hkeys

theorem nodeAt_tree {t : Tree Id α} (ht : l.Sits t) : Does (nodeAt t.label) l (.ok t.shape) l :=
  Does.look fun a h => by rw [h.node_tree ht]

/-- **Induction along a loop over a stack**, with fuel for what its elements weigh. A step takes the first element off
and leaves a stack that weighs less. -/
theorem stackInduction {w : β → Nat} (hw : ∀ x, 0 < w x)
    {motive : (fuel : Nat) → (xs : List β) → (xs.map w).sum ≤ fuel → Prop}
    (nil : ∀ fuel, motive fuel [] (Nat.zero_le fuel))
    (cons : ∀ fuel x xs (hfuel : ((x :: xs).map w).sum ≤ fuel + 1),
      (∀ ys (hys : (ys.map w).sum < ((x :: xs).map w).sum),
        motive fuel ys (Nat.le_of_lt_succ (hys.trans_le hfuel))) → motive (fuel + 1) (x :: xs) hfuel)
    (fuel : Nat) (xs : List β) (hfuel : (xs.map w).sum ≤ fuel) : motive fuel xs hfuel := by
  induction fuel generalizing xs with
  | zero =>
    cases xs with
    | nil => exact nil 0
    | cons x xs =>
      have hpos : 0 < w x + (xs.map w).sum := Nat.add_pos_left (hw x) _
      exact absurd hfuel (Nat.not_le_of_gt hpos)
  | succ fuel ih =>
    cases xs with
    | nil => exact nil _
    | cons x xs => exact cons fuel x xs hfuel fun ys _ => ih ys _

/-- A stack weighs less with the children of a tree in its place. -/
theorem size_push {t : Tree ι α} {cs : List (Tree ι α)} (hcs : cs.Perm t.children) (ts : List (Tree ι α)) :
    ((cs ++ ts).map size).sum < ((t :: ts).map size).sum := by
  rw [List.map_append, List.sum_append, List.map_cons, List.sum_cons, size_eq t, (hcs.map size).sum_eq]
  omega

/-- The children of a tree that sits there sit there in its place. -/
theorem sits_push {t : Tree Id α} {cs ts : List (Tree Id α)} (hcs : cs.Perm t.children)
    (hts : ∀ u ∈ t :: ts, l.Sits u) : ∀ u ∈ cs ++ ts, l.Sits u := by
  obtain ⟨ht, hts⟩ := List.forall_mem_cons.mp hts
  exact List.forall_mem_append.mpr ⟨fun c hc => ht.child (hcs.mem_iff.mp hc), hts⟩

/-- A walk through trees that sit there lists their labels, parents first. -/
theorem preorderLoop_eq (h : Shows a l) (fuel : Nat) (ts : List (Tree Id α)) (hts : ∀ t ∈ ts, l.Sits t)
    (hfuel : (ts.map size).sum ≤ fuel) :
    a.preorderLoop fuel (ts.map label) = .ok ((ts.flatMap preorder).map label) := by
  induction fuel, ts, hfuel using stackInduction size_pos with
  | nil fuel => cases fuel <;> rfl
  | cons fuel t ts _ ih =>
    have hpush : t.children.Perm t.children := .refl _
    have hrest := ih (t.children ++ ts) (size_push hpush ts) (sits_push hpush hts)
    rw [List.map_cons, preorderLoop, h.children_tree (hts t List.mem_cons_self), ← List.map_append, hrest,
      List.flatMap_cons, preorder_eq t, List.flatMap_append]
    rfl

theorem preorderFrom_eq (h : Shows a l) {t : Tree Id α} (ht : l.Sits t) :
    a.preorderFrom t.label = .ok t.labels := by
  have hfuel := h.size_lt_limit ht
  have hloop := preorderLoop_eq h a.limit [t] (by simpa using ht) (by simp; omega)
  rwa [List.map_singleton, List.flatMap_singleton] at hloop

/-- A walk through trees that sit there lists their labels, children first. -/
theorem postorderLoop_eq (h : Shows a l) (fuel : Nat) (ts : List (Tree Id α)) (hts : ∀ t ∈ ts, l.Sits t)
    (hfuel : (ts.map size).sum ≤ fuel) (met : List Id) :
    a.postorderLoop fuel (ts.map label) met = .ok ((ts.reverse.flatMap postorder).map label ++ met) := by
  induction fuel, ts, hfuel using stackInduction size_pos generalizing met with
  | nil fuel => cases fuel <;> rfl
  | cons fuel t ts _ ih =>
    have hpush : t.children.reverse.Perm t.children := List.reverse_perm _
    have hrest := ih (t.children.reverse ++ ts) (size_push hpush ts) (sits_push hpush hts) (t.label :: met)
    rw [List.map_cons, postorderLoop, h.children_tree (hts t List.mem_cons_self), ← List.map_reverse,
      ← List.map_append, hrest, List.reverse_append, List.reverse_reverse, List.flatMap_append, List.reverse_cons,
      List.flatMap_append, List.flatMap_singleton, postorder_eq t]
    simp

theorem postorderFrom_eq (h : Shows a l) {t : Tree Id α} (ht : l.Sits t) :
    a.postorderFrom t.label = .ok (t.postorder.map label) := by
  have hfuel := h.size_lt_limit ht
  have hloop := postorderLoop_eq h a.limit [t] (by simpa using ht) (by simp; omega) []
  rw [postorderFrom]
  simpa using hloop

end Arena

end SignalFlow
