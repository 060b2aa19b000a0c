import SignalFlow.Proofs.Arena.Cells
import SignalFlow.Proofs.Arena.Pass

/-!
# Freeing, copying and comparing trees in an arena

Freeing a tree gives its slots back in the order of `Tree.discard` (`freeTree_does`); without the tree to keep it is the
order of `Expr.discardExcept` (`freeExcept_does`). A copy gets the slots of `Tree.place` (`copyFrom_does`), and so does
a tree that is planted (`plant_does`). Comparing and reading off walk through trees that sit there (`sameAt_eq`,
`termFrom_eq`).
-/

namespace SignalFlow

open Arena

variable {ι α : Type}

/-! ## Slots -/

theorem Slots.release_cons (s : Slots) (i : Id) (freed : List Id) :
    s.release (i :: freed) = Slots.release { s with free := i :: s.free } freed := rfl

theorem Slots.release_append (s : Slots) (freed more : List Id) :
    s.release (freed ++ more) = (s.release freed).release more := by
  rw [release, release, release, List.foldl_append]

/-- What is given back is free. -/
theorem Slots.mem_free_release {s : Slots} {freed : List Id} {i : Id} :
    i ∈ (s.release freed).free ↔ i ∈ freed ∨ i ∈ s.free := by
  induction freed generalizing s with
  | nil => simp [release]
  | cons j freed ih => rw [release_cons, ih, List.mem_cons, List.mem_cons, or_left_comm, ← or_assoc]

namespace Tree

theorem discardAllOnto_nil (ts : List (Tree ι α)) : discardAllOnto ts [] = ts.reverse.flatMap discard := by
  rw [discardAllOnto_eq fun t _ => discardOnto_eq t, List.append_nil]

/-! ## Places -/

/-- **What `place` does**: it places the children, and then takes a slot for the root. -/
theorem place_eq (t : Tree ι α) (s : Slots) :
    (t.place s).2 = (placeAll t.children s).2.take.2 ∧ (t.place s).1.label = (placeAll t.children s).2.take.1 ∧
      (t.place s).1.children = (placeAll t.children s).1 := by
  cases t <;> exact ⟨rfl, rfl, rfl⟩

theorem length_placeAll (ts : List (Tree ι α)) (s : Slots) : (placeAll ts s).1.length = ts.length := by
  induction ts generalizing s with
  | nil => rfl
  | cons t ts ih => exact congrArg (· + 1) (ih _)

/-- The root of a placed tree is the old one with the new operands. -/
theorem shape_place (t : Tree Id α) (s : Slots) :
    (t.place s).1.shape = t.shape.withChildren ((placeAll t.children s).1.map label) := by
  cases t with
  | literal | var | infinity | negate | binary => rfl
  | list l items =>
    have hlength : (items.map label).length ≤ ((placeAll items s).1.map label).length := by
      rw [List.length_map, List.length_map, length_placeAll]
    change _ = Node.list (_ ++ (items.map label).drop _)
    rw [children, List.drop_eq_nil_of_le hlength, List.append_nil]
    rfl

mutual

/-- Slots depend on the tree, not on its labels. -/
theorem place_place (t : Tree ι α) (s s' : Slots) : (t.place s).1.place s' = t.place s' := by
  match t with
  | .literal _ _ | .var _ _ | .infinity _ => rfl
  | .negate _ t => simp only [place, place_place t]
  | .binary _ op a b => simp only [place, place_place a, place_place b]
  | .list _ items => simp only [place, placeAll_placeAll items]

theorem placeAll_placeAll (ts : List (Tree ι α)) (s s' : Slots) : placeAll (placeAll ts s).1 s' = placeAll ts s' := by
  match ts with
  | [] => rfl
  | t :: ts => simp only [placeAll, place_place t, placeAll_placeAll ts]

end

theorem cellsAll_reverse (p : Option Id) (ts : List (Tree Id α)) : cellsAll p ts.reverse = cellsAll p ts := by
  induction ts with
  | nil => rfl
  | cons t ts ih => rw [List.reverse_cons, cellsAll_append, ih, cellsAll, cellsAll, cellsAll, add_zero, add_comm]

theorem cellsEach_append (us vs : List (Option Id × Tree Id α)) :
    cellsEach (us ++ vs) = cellsEach us + cellsEach vs := by
  induction us with
  | nil => simp [cellsEach]
  | cons u us ih => rw [List.cons_append, cellsEach, cellsEach, ih, add_assoc]

theorem card_cellsAll (p : Option Id) (ts : List (Tree Id α)) :
    Multiset.card (cellsAll p ts) = (ts.map size).sum := by
  induction ts with
  | nil => rfl
  | cons t ts ih => rw [cellsAll, Multiset.card_add, card_cells, ih, List.map_cons, List.sum_cons]

end Tree

namespace Arena

open SignalFlow.Tree

variable {s : Slots} {r : Id} {p q : Option Id} {C : Multiset (Id × Cell α)} {l m : Layout α}
  {o : Except ExprError Unit}

/-! ## Freeing -/

/-- A live node on top of the stack is freed, and the nodes below it are next. -/
theorem freeAll_cons {keep : Option Id} {fuel : Nat} {i : Id} {c : Cell α} {stack : List Id} (hi : some i ≠ keep)
    (hrest : Does (freeAll keep fuel (c.node.children.reverse ++ stack)) ⟨{ s with free := i :: s.free }, r, C⟩ o m) :
    Does (freeAll keep (fuel + 1) (i :: stack)) ⟨s, r, {(i, c)} + C⟩ o m := by
  rw [freeAll, if_neg hi]
  refine (Does.look (b := some c) fun a h => by rw [slot?_head h]).bind ?_
  exact (Does.write fun a h => h.drop).bind hrest

/-- What is to be kept is passed over. -/
theorem freeAll_keep {fuel : Nat} {i : Id} {stack : List Id} (hrest : Does (freeAll (some i) fuel stack) l o m) :
    Does (freeAll (some i) (fuel + 1) (i :: stack)) l o m := by
  rwa [freeAll, if_pos rfl]

/-- **Freeing trees** gives their slots back; one that is to be kept stays. -/
theorem freeAll_does (keep : Option Id) (fuel : Nat) (us : List (Option Id × Tree Id α))
    (hkeep : ∀ u ∈ us, some u.2.label = keep ∨ ∀ i ∈ u.2.labels, some i ≠ keep)
    (hfuel : (us.map (·.2.size)).sum ≤ fuel) :
    Does (freeAll keep fuel (us.map (·.2.label))) ⟨s, r, cellsEach (us.filter (some ·.2.label ≠ keep)) + C⟩ (.ok ())
      ⟨s.release ((us.filter (some ·.2.label ≠ keep)).flatMap (·.2.discard)), r, C⟩ := by
  induction fuel, us, hfuel using stackInduction (fun u : Option Id × Tree Id α => u.2.size_pos) generalizing s C with
  | nil fuel =>
    rw [List.map_nil, freeAll]
    simp only [List.filter_nil, cellsEach, zero_add]
    exact Does.pure ()
  | cons fuel u us _ ih =>
    obtain ⟨p, t⟩ := u
    obtain ⟨ht, hus⟩ := List.forall_mem_cons.mp hkeep
    rw [List.map_cons]
    by_cases hroot : some t.label = keep
    · subst hroot
      rw [List.filter_cons_of_neg (by simp)]
      exact freeAll_keep (ih us (Nat.lt_add_of_pos_left t.size_pos) hus)
    · have hinner := ht.resolve_left hroot
      have hbelow : ∀ c ∈ t.children, ∀ i ∈ c.labels, some i ≠ keep := by
        intro c hc i hi
        refine hinner i ?_
        rw [labels_eq]
        exact List.mem_cons_of_mem _ (List.mem_flatMap.mpr ⟨c, hc, hi⟩)
      let children := t.children.reverse.map fun c => (some t.label, c)
      have hmem : ∀ v ∈ children, v.2 ∈ t.children := by
        intro v hv
        obtain ⟨c, hc, rfl⟩ := List.mem_map.mp hv
        exact List.mem_reverse.mp hc
      have hsize : ((children ++ us).map (·.2.size)).sum < (((p, t) :: us).map (·.2.size)).sum := by
        have htrees : children.map (·.2.size) = (t.children.map size).reverse := by
          simp [children, Function.comp_def]
        rw [List.map_append, List.sum_append, htrees, List.sum_reverse, List.map_cons, List.sum_cons, size_eq t]
        omega
      have hnone : children.filter (some ·.2.label ≠ keep) = children :=
        List.filter_eq_self.mpr fun v hv => decide_eq_true (hbelow v.2 (hmem v hv) _ v.2.label_mem_labels)
      have hstack : t.shape.children.reverse ++ us.map (·.2.label) = (children ++ us).map (·.2.label) := by
        simp [children, children_shape, List.map_reverse]
      have hrest := ih (children ++ us) hsize (s := { s with free := t.label :: s.free }) (C := C)
        (List.forall_mem_append.mpr ⟨fun v hv => .inr (hbelow v.2 (hmem v hv)), hus⟩)
      rw [List.filter_cons_of_pos (by simpa using hroot), cellsEach, cells_eq, List.flatMap_cons, discard_eq,
        List.cons_append, Slots.release_cons, add_assoc, add_assoc]
      refine freeAll_cons hroot ?_
      rw [hstack]
      rw [List.filter_append, hnone, cellsEach_append, cellsEach_map, cellsAll_reverse, List.flatMap_append,
        List.flatMap_map, add_assoc] at hrest
      exact hrest

/-- **Freeing a tree.** -/
theorem freeTree_does (t : Tree Id α) (p : Option Id) :
    Does (freeTree t.label) ⟨s, r, t.cells p + C⟩ (.ok ()) ⟨s.release t.discard, r, C⟩ := by
  intro a h
  have hfuel := h.size_lt_limit (Layout.Sits.of_add t p)
  have hloop := freeAll_does none a.limit [(p, t)] (s := s) (r := r) (C := C)
    (by simp) (by simp; omega)
  simp only [List.map_singleton, ne_eq, reduceCtorEq, not_false_eq_true, decide_true, List.filter_true, cellsEach,
    List.flatMap_singleton, add_zero] at hloop
  exact hloop a h

/-- Freeing several trees. -/
theorem freeTrees_does (ts : List (Tree Id α)) (p : Option Id) :
    Does (freeTrees (ts.map label)) ⟨s, r, cellsAll p ts + C⟩ (.ok ()) ⟨s.release (ts.flatMap discard), r, C⟩ := by
  induction ts generalizing s with
  | nil =>
    rw [cellsAll, zero_add]
    exact Does.pure ()
  | cons t ts ih =>
    rw [cellsAll, add_assoc, List.flatMap_cons, Slots.release_append]
    exact (freeTree_does t p).bind ih

/-- **Freeing a node without one of its operands**, which has another parent already. -/
theorem freeExcept_does {P t : Tree Id α} {before after : List (Tree Id α)} (hP : P.children = before ++ t :: after)
    (hroot : P.label ≠ t.label) (hothers : t.label ∉ (before ++ after).flatMap labels) :
    Does (freeExcept P.label (some t.label))
      ⟨s, r, {(P.label, ⟨P.shape, p⟩)} + (cellsAll (some P.label) (before ++ after) + (t.cells q + C))⟩ (.ok ())
      ⟨s.release (P.label :: (before ++ after).reverse.flatMap discard), r, t.cells q + C⟩ := by
  intro a h
  let us := after.reverse.map (some P.label, ·) ++ (q, t) :: before.reverse.map (some P.label, ·)
  have hlabels : us.map (·.2.label) = P.shape.children.reverse ++ [] := by
    simp [us, children_shape, hP, Function.comp_def]
  have hother : ∀ u ∈ after.reverse ++ before.reverse, ∀ i ∈ u.labels, some i ≠ some t.label := by
    intro u hu i hi heq
    refine hothers (List.mem_flatMap.mpr ⟨u, ?_, Option.some.inj heq ▸ hi⟩)
    rwa [← List.reverse_append, List.mem_reverse] at hu
  have hfilter : us.filter (some ·.2.label ≠ some t.label) = (before ++ after).reverse.map (some P.label, ·) := by
    have hall : ∀ ts : List (Tree Id α), (∀ u ∈ ts, u ∈ after.reverse ++ before.reverse) →
        (ts.map (some P.label, ·)).filter (some ·.2.label ≠ some t.label) = ts.map (some P.label, ·) := by
      intro ts hts
      refine List.filter_eq_self.mpr fun v hv => ?_
      obtain ⟨u, hu, rfl⟩ := List.mem_map.mp hv
      exact decide_eq_true (hother u (hts u hu) _ u.label_mem_labels)
    rw [List.filter_append, List.filter_cons_of_neg (by simp), hall _ fun u hu => List.mem_append_left _ hu,
      hall _ fun u hu => List.mem_append_right _ hu, ← List.map_append, List.reverse_append]
  have hcard := h.whole.card
  simp only [Multiset.card_add, Multiset.card_singleton, card_cellsAll, card_cells] at hcard
  have hfuel : (us.map (·.2.size)).sum ≤ a.slots.size := by
    rw [List.map_append, List.sum_append] at hcard
    have hus : (us.map (·.2.size)).sum = (after.map size).sum + (t.size + (before.map size).sum) := by
      simp [us, Function.comp_def]
    have hsize : a.slots.size = s.size := h.size
    omega
  have hloop := freeAll_does (some t.label) _ us (s := { s with free := P.label :: s.free }) (r := r)
    (C := t.cells q + C) (fun u hu => ?_) hfuel
  · rw [hlabels, hfilter, cellsEach_map, cellsAll_reverse, List.flatMap_map] at hloop
    exact freeAll_cons (c := ⟨P.shape, p⟩) (fun heq => hroot (Option.some.inj heq)) hloop a h
  · rcases List.mem_append.mp hu with hu | hu
    · obtain ⟨c, hc, rfl⟩ := List.mem_map.mp hu
      exact .inr (hother c (List.mem_append_left _ hc))
    · rcases List.mem_cons.mp hu with rfl | hu
      · exact .inl rfl
      · obtain ⟨c, hc, rfl⟩ := List.mem_map.mp hu
        exact .inr (hother c (List.mem_append_right _ hc))

/-! ## Copying -/

/-- Making the root of a placed tree above its placed children. -/
theorem alloc_place (t : Tree ι α) (s : Slots) :
    Does (alloc (t.place s).1.shape) ⟨(placeAll t.children s).2, r, cellsAll none (placeAll t.children s).1 + C⟩
      (.ok (t.place s).1.label) ⟨(t.place s).2, r, (t.place s).1.cells none + C⟩ := by
  obtain ⟨hslots, hlabel, hchildren⟩ := t.place_eq s
  have halloc := alloc_tree (r := r) (C := C) hlabel
  rwa [hchildren, ← hslots] at halloc

theorem copyAll_trees {source : Arena α} {ts : List (Tree Id α)} {β : Type} {f : List Id → Step α β}
    {o : Except ExprError β}
    (h : ∀ t ∈ ts, ∀ {s : Slots} {C : Multiset (Id × Cell α)} {rest done : List Id},
      Does (copyAll source rest ((t.place s).1.label :: done) >>= f)
        ⟨(t.place s).2, r, (t.place s).1.cells none + C⟩ o m →
      Does (copyAll source (t.postorder.map label ++ rest) done >>= f) ⟨s, r, C⟩ o m)
    {rest done : List Id}
    (hrest : Does (copyAll source rest (((placeAll ts s).1.map label).reverse ++ done) >>= f)
      ⟨(placeAll ts s).2, r, cellsAll none (placeAll ts s).1 + C⟩ o m) :
    Does (copyAll source ((ts.flatMap postorder).map label ++ rest) done >>= f) ⟨s, r, C⟩ o m := by
  induction ts generalizing s C done with
  | nil =>
    rw [show cellsAll none (placeAll [] s).1 + C = C from zero_add C] at hrest
    exact hrest
  | cons t ts ih =>
    rw [List.flatMap_cons, List.map_append, List.append_assoc]
    refine h t List.mem_cons_self (ih (fun u hu => h u (List.mem_cons_of_mem _ hu)) ?_)
    have hcells : cellsAll none (placeAll (t :: ts) s).1 + C =
        cellsAll none (placeAll ts (t.place s).2).1 + ((t.place s).1.cells none + C) := by
      change (t.place s).1.cells none + cellsAll none (placeAll ts (t.place s).2).1 + C = _
      abel
    have hlabels : ((placeAll (t :: ts) s).1.map label).reverse ++ done =
        ((placeAll ts (t.place s).2).1.map label).reverse ++ ((t.place s).1.label :: done) := by
      change (((t.place s).1 :: (placeAll ts (t.place s).2).1).map label).reverse ++ done = _
      rw [List.map_cons, List.reverse_cons, List.append_assoc, List.singleton_append]
    rwa [hcells, hlabels] at hrest

/-- Copying the nodes of a tree, operands first, makes the tree that `place` gives its slots. -/
theorem copyAll_tree {source : Arena α} {k : Layout α} (hsource : Shows source k) {β : Type} {f : List Id → Step α β}
    {o : Except ExprError β} (t : Tree Id α) (ht : k.Sits t) {rest done : List Id}
    (hrest : Does (copyAll source rest ((t.place s).1.label :: done) >>= f)
      ⟨(t.place s).2, r, (t.place s).1.cells none + C⟩ o m) :
    Does (copyAll source (t.postorder.map label ++ rest) done >>= f) ⟨s, r, C⟩ o m := by
  induction t using childInduction generalizing s C rest done with
  | h t ih =>
    rw [postorder_eq, List.map_append, List.map_singleton, List.append_assoc]
    refine copyAll_trees (fun c hc => fun {s C rest done} h => ih c hc (ht.child hc) h) ?_
    have hlength : t.shape.children.length = ((placeAll t.children s).1.map label).reverse.length := by
      rw [children_shape, List.length_reverse, List.length_map, List.length_map, length_placeAll]
    have hnode : t.shape.withChildren ((((placeAll t.children s).1.map label).reverse ++ done).take
        t.shape.children.length).reverse = (t.place s).1.shape := by
      rw [hlength, List.take_left, List.reverse_reverse, shape_place]
    rw [List.singleton_append, copyAll]
    simp only [bind_assoc]
    refine (Does.look (b := t.shape) fun a h => by rw [hsource.node_tree ht]).bind ?_
    rw [hnode, hlength, List.drop_left]
    exact (alloc_place t s).bind hrest

/-- **A copy of a tree** gets the slots of `place`. -/
theorem copyFrom_does {source : Arena α} {k : Layout α} (hsource : Shows source k) {t : Tree Id α} (ht : k.Sits t) :
    Does (copyFrom source t.label) ⟨s, r, C⟩ (.ok (t.place s).1.label)
      ⟨(t.place s).2, r, (t.place s).1.cells none + C⟩ := by
  refine (Does.look (b := t.postorder.map label) fun a h => postorderFrom_eq hsource ht).bind ?_
  rw [← List.append_nil (t.postorder.map label)]
  refine copyAll_tree hsource t ht ?_
  exact (Does.pure _).bind (Does.pure _)

mutual

/-- **A tree that is planted** gets the slots of `place`. -/
theorem plant_does (t : Term α) {s : Slots} {C : Multiset (Id × Cell α)} :
    Does (plant t) ⟨s, r, C⟩ (.ok (t.place s).1.label) ⟨(t.place s).2, r, (t.place s).1.cells none + C⟩ := by
  have halloc := alloc_place (r := r) (C := C) t s
  match t with
  | .literal _ _ | .var _ _ | .infinity _ =>
    change Does _ ⟨_, _, 0 + C⟩ _ _ at halloc
    rw [zero_add] at halloc
    exact halloc
  | .negate _ t =>
    change Does _ ⟨_, _, (t.place s).1.cells none + 0 + C⟩ _ _ at halloc
    rw [add_zero] at halloc
    exact (plant_does t).bind halloc
  | .binary _ op t u =>
    change Does _ ⟨_, _, (t.place s).1.cells none + ((u.place (t.place s).2).1.cells none + 0) + C⟩ _ _ at halloc
    rw [add_zero, add_comm ((t.place s).1.cells none), add_assoc] at halloc
    exact (plant_does t).bind ((plant_does u).bind halloc)
  | .list _ ts => exact (plantAll_does ts).bind halloc

theorem plantAll_does (ts : List (Term α)) {s : Slots} {C : Multiset (Id × Cell α)} :
    Does (plantAll ts) ⟨s, r, C⟩ (.ok ((placeAll ts s).1.map label))
      ⟨(placeAll ts s).2, r, cellsAll none (placeAll ts s).1 + C⟩ := by
  match ts with
  | [] =>
    rw [show cellsAll none (placeAll [] s).1 + C = C from zero_add C]
    exact Does.pure _
  | t :: ts =>
    have hcells : cellsAll none (placeAll (t :: ts) s).1 + C =
        cellsAll none (placeAll ts (t.place s).2).1 + ((t.place s).1.cells none + C) := by
      change (t.place s).1.cells none + cellsAll none (placeAll ts (t.place s).2).1 + C = _
      abel
    rw [hcells]
    exact (plant_does t).bind ((plantAll_does ts).bind (Does.pure _))

end

/-! ## Arenas of their own -/

theorem shows_unrooted : Shows (unrooted : Arena α) ⟨{}, ⟨0⟩, 0⟩ :=
  ⟨rfl, rfl, rfl, rfl, fun i c => by simp [slot?, unrooted]⟩

/-- What is built on an arena without nodes. -/
theorem build_shows {x : Step α Id} {i : Id} (hx : Does x ⟨{}, ⟨0⟩, 0⟩ (.ok i) ⟨s, r, C⟩) :
    ∃ a, build x = .ok a ∧ Shows a ⟨s, i, C⟩ := by
  obtain ⟨a, hon, h⟩ := (hx.bind (setRoot_does i)) unrooted shows_unrooted
  exact ⟨a, by rw [build, hon], h⟩

/-! ## Reading off and comparing -/

theorem mapM_term {f : Id → Except Panic (Term α)} (ts : List (Tree Id α))
    (hf : ∀ t ∈ ts, f t.label = .ok t.term) : (ts.map label).mapM f = .ok (relabelAll (fun _ => ()) ts) := by
  induction ts with
  | nil => rfl
  | cons t ts ih =>
    rw [List.map_cons, List.mapM_cons, hf t List.mem_cons_self, ih fun u hu => hf u (List.mem_cons_of_mem _ hu)]
    rfl

/-- Reading off a tree that sits there. -/
theorem termLoop_eq {a : Arena α} (h : Shows a l) {t : Tree Id α} (ht : l.Sits t) {fuel : Nat} (hfuel : t.size ≤ fuel) :
    a.termLoop fuel t.label = .ok t.term := by
  induction t using childInduction generalizing fuel with
  | h t ih =>
    have hnode := h.node_tree ht
    cases fuel with
    | zero => exact absurd hfuel (Nat.not_le.mpr t.size_pos)
    | succ fuel =>
      have hchild : ∀ c ∈ t.children, a.termLoop fuel c.label = .ok c.term := fun c hc =>
        ih c hc (ht.child hc) (Nat.le_of_lt_succ (Nat.lt_of_lt_of_le (size_lt_of_mem_children hc) hfuel))
      rw [termLoop, hnode]
      cases t with
      | literal | var | infinity => rfl
      | negate l u =>
        change (a.termLoop fuel u.label >>= _) = _
        rw [hchild u List.mem_cons_self]
        rfl
      | binary l op x y =>
        change (a.termLoop fuel x.label >>= _) = _
        rw [hchild x List.mem_cons_self]
        change (a.termLoop fuel y.label >>= _) = _
        rw [hchild y (List.mem_cons_of_mem _ List.mem_cons_self)]
        rfl
      | list l items =>
        change ((items.map label).mapM (a.termLoop fuel) >>= _) = _
        rw [mapM_term items hchild]
        rfl

theorem termFrom_eq {a : Arena α} (h : Shows a l) {t : Tree Id α} (ht : l.Sits t) : a.termFrom t.label = .ok t.term :=
  termLoop_eq h ht (Nat.le_of_lt (h.size_lt_limit ht))

theorem sameAll_eq [Scalar α] (ts us : List (Tree Id α)) :
    sameAll ts us = (decide (ts.length = us.length) && (ts.zip us).all fun u => u.1.same u.2) := by
  induction ts generalizing us with
  | nil => cases us <;> simp [sameAll]
  | cons t ts ih =>
    cases us with
    | nil => simp [sameAll]
    | cons u us =>
      rw [sameAll, ih, List.zip_cons_cons, List.all_cons, List.length_cons, List.length_cons]
      simp only [Nat.add_right_cancel_iff]
      rw [Bool.and_left_comm]

/-- Two trees agree if their roots do, and their operands one by one. -/
theorem same_eq [Scalar α] (t u : Tree Id α) :
    (t.shape.pairs? u.shape = none ∧ t.same u = false) ∨
      t.shape.pairs? u.shape = some ((t.children.zip u.children).map fun v => (v.1.label, v.2.label)) ∧
        t.same u = (t.children.zip u.children).all fun v => v.1.same v.2 := by
  cases t with
  | literal l v =>
    cases u with
    | literal k w => by_cases h : Scalar.same v w <;> simp [shape, Node.pairs?, same, Tree.children, h]
    | _ => exact .inl ⟨rfl, rfl⟩
  | var l name =>
    cases u with
    | var k other => by_cases h : name = other <;> simp [shape, Node.pairs?, same, Tree.children, h]
    | _ => exact .inl ⟨rfl, rfl⟩
  | infinity l =>
    cases u with
    | infinity k => exact .inr ⟨rfl, rfl⟩
    | _ => exact .inl ⟨rfl, rfl⟩
  | negate l t =>
    cases u with
    | negate k u => simp [shape, Node.pairs?, same, Tree.children]
    | _ => exact .inl ⟨rfl, rfl⟩
  | binary l op a b =>
    cases u with
    | binary k op' a' b' => by_cases h : op = op' <;> simp [shape, Node.pairs?, same, Tree.children, h]
    | _ => exact .inl ⟨rfl, rfl⟩
  | list l items =>
    cases u with
    | list k others =>
      by_cases h : items.length = others.length <;>
        simp [shape, Node.pairs?, same, Tree.children, h, sameAll_eq, List.zip_map]
    | _ => exact .inl ⟨rfl, rfl⟩

theorem sum_size_zip_le (ts us : List (Tree Id α)) : ((ts.zip us).map (·.1.size)).sum ≤ (ts.map size).sum := by
  induction ts generalizing us with
  | nil => exact Nat.le_refl 0
  | cons t ts ih =>
    cases us with
    | nil => exact Nat.zero_le _
    | cons u us => exact Nat.add_le_add_left (ih us) t.size

/-- Comparing trees that sit there, in pairs. -/
theorem sameLoop_eq [Scalar α] {a b : Arena α} {k : Layout α} (ha : Shows a l) (hb : Shows b k) (fuel : Nat)
    (us : List (Tree Id α × Tree Id α)) (hus : ∀ u ∈ us, l.Sits u.1 ∧ k.Sits u.2)
    (hfuel : (us.map (·.1.size)).sum ≤ fuel) :
    a.sameLoop b fuel (us.map fun u => (u.1.label, u.2.label)) = .ok (us.all fun u => u.1.same u.2) := by
  induction fuel, us, hfuel using stackInduction (fun u : Tree Id α × Tree Id α => u.1.size_pos) with
  | nil fuel => cases fuel <;> rfl
  | cons fuel u us _ ih =>
    obtain ⟨t, v⟩ := u
    obtain ⟨⟨ht, hv⟩, hrest⟩ := List.forall_mem_cons.mp hus
    rw [List.map_cons, sameLoop, ha.node_tree ht, hb.node_tree hv, List.all_cons]
    rcases same_eq t v with ⟨hpairs, hsame⟩ | ⟨hpairs, hsame⟩
    · simp only [hpairs, hsame, Bool.false_and]
    · have hsize : (((t.children.zip v.children).reverse ++ us).map (·.1.size)).sum <
          (((t, v) :: us).map (·.1.size)).sum := by
        have hzip := sum_size_zip_le t.children v.children
        rw [List.map_append, List.sum_append, List.map_reverse, List.sum_reverse, List.map_cons, List.sum_cons,
          size_eq t]
        omega
      have hchildren : ∀ w ∈ (t.children.zip v.children).reverse, l.Sits w.1 ∧ k.Sits w.2 := by
        intro w hw
        have hzip := List.of_mem_zip (List.mem_reverse.mp hw)
        exact ⟨ht.child hzip.1, hv.child hzip.2⟩
      simp only [hpairs, hsame]
      rw [← List.map_reverse, ← List.map_append, ih _ hsize (List.forall_mem_append.mpr ⟨hchildren, hrest⟩),
        List.all_append, List.all_reverse]

/-- **Comparing two trees.** -/
theorem sameAt_eq [Scalar α] {a b : Arena α} {k : Layout α} (ha : Shows a l) (hb : Shows b k) {t u : Tree Id α}
    (ht : l.Sits t) (hu : k.Sits u) : a.sameAt t.label b u.label = .ok (t.same u) := by
  have hsize := ha.size_lt_limit ht
  have hloop := sameLoop_eq ha hb a.limit [(t, u)] (by simpa using ⟨ht, hu⟩) (by simp; omega)
  rw [sameAt]
  simpa using hloop

end Arena

end SignalFlow
