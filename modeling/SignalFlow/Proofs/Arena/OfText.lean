import SignalFlow.Proofs.Arena.Surgery
import SignalFlow.Proofs.Reader.Bare

/-!
# Slots of an expression from text

Expanding the calls of a tree takes slots and gives slots back, dissolving groups gives slots back. Both keep account of
them: the free slots and the labels of the tree are all slots made so far, each once (`Slots.Holds`). So an expression
that is read from a text is whole (`Expr.whole_ofText`).
-/

namespace SignalFlow

open SignalFlow.Tree Arena

variable {ι α : Type}

/-! ## Slots and labels -/

/-- **The free slots and the labels `m` are all slots made so far**, each once. -/
def Slots.Holds (s : Slots) (m : Multiset Id) : Prop := (s.free : Multiset Id) + m = handlesBelow s.size

namespace Slots.Holds

variable {s : Slots} {m m' : Multiset Id}

theorem of_eq (h : s.Holds m) (heq : m' = m) : s.Holds m' := heq ▸ h

theorem take (h : s.Holds m) : s.take.2.Holds ({s.take.1} + m) := by
  obtain ⟨free, size⟩ := s
  cases free with
  | nil =>
    have hsize : (([] : List Id) : Multiset Id) + m = handlesBelow size := h
    change (([] : List Id) : Multiset Id) + ({⟨size⟩} + m) = handlesBelow (size + 1)
    rw [handlesBelow_succ, ← hsize]
    abel
  | cons i rest =>
    have hsize : ((i :: rest : List Id) : Multiset Id) + m = handlesBelow size := h
    change (rest : Multiset Id) + ({i} + m) = handlesBelow size
    rw [← hsize, ← Multiset.cons_coe, ← Multiset.singleton_add]
    abel

theorem release {freed : List Id} (h : s.Holds ((freed : Multiset Id) + m)) : (s.release freed).Holds m := by
  induction freed generalizing s with
  | nil => exact h.of_eq (zero_add m).symm
  | cons i freed ih =>
    refine ih (s := { s with free := i :: s.free }) ?_
    change ((i :: s.free : List Id) : Multiset Id) + ((freed : Multiset Id) + m) = handlesBelow s.size
    rw [← show (s.free : Multiset Id) + (((i :: freed : List Id) : Multiset Id) + m) = handlesBelow s.size from h,
      ← Multiset.cons_coe, ← Multiset.cons_coe, ← Multiset.singleton_add,
      ← Multiset.singleton_add i (freed : Multiset Id)]
    abel

end Slots.Holds

/-- An expression is whole if its slots hold its labels. -/
theorem Expr.whole_iff {e : Expr α} : e.Whole ↔ e.slots.Holds (e.forest.flatMap labels : Multiset Id) := by
  rw [← e.keys_layout]
  rfl

/-! ## Calls -/

namespace Reader

/-- The labels of the product that a place is in and of the factor that follows. -/
def Place.labels : Place α → Multiset Id
  | .before holder next => {holder} + (next.labels : Multiset Id)
  | _ => 0

theorem Place.labels_alone : (alone : Place α).labels = 0 := rfl

theorem Place.labels_ofRight (p : Place α) : p.ofRight.labels = p.labels := by
  cases p <;> rfl

/-- **Expanding keeps account of the slots**, whatever other labels `m` there are: the result has its labels, and those
of the place if the factor that follows was not used up. It is used up only if there is one. -/
def Balances (t : Tree Id α) (p : Place α) : Prop :=
  ∀ (s : Slots) (r : Expanded (Tree Id α)) (m : Multiset Id), expand t p s = .ok r →
    s.Holds ((t.labels : Multiset Id) + (p.labels + m)) →
    r.slots.Holds ((r.result.labels : Multiset Id) + ((if r.tookNext then 0 else p.labels) + m)) ∧
      (r.tookNext = true → ∃ holder next, p = .before holder next)

variable {t u a b : Tree Id α} {p : Place α} {s : Slots} {l : Id} {m : Multiset Id}

/-- Where no factor follows, none is used up. -/
theorem Balances.alone (h : Balances t .alone) {r : Expanded (Tree Id α)} (hr : expand t .alone s = .ok r)
    (hs : s.Holds ((t.labels : Multiset Id) + m)) :
    r.slots.Holds ((r.result.labels : Multiset Id) + m) ∧ r.tookNext = false := by
  obtain ⟨hholds, htook⟩ := h s r m hr (hs.of_eq (by rw [Place.labels_alone, zero_add]))
  cases hnext : r.tookNext with
  | true =>
    obtain ⟨holder, next, hp⟩ := htook hnext
    cases hp
  | false => exact ⟨hholds.of_eq (by rw [Place.labels_alone, ite_self, zero_add]), rfl⟩

theorem balances_leaf (h : ∀ s, expand t p s = .ok ⟨t, false, s⟩) : Balances t p := by
  intro s r m hr hs
  rw [h] at hr
  cases hr
  exact ⟨hs, nofun⟩

theorem balances_negate (h : Balances u (p.underSign u)) : Balances (.negate l u) p := by
  intro s r m hr hs
  rw [expand.eq_def] at hr
  obtain ⟨inner, hinner, hr⟩ := bind_eq_ok hr
  cases hr
  rw [labels_negate, ← Multiset.cons_coe, ← Multiset.singleton_add] at hs ⊢
  rcases p.underSign_eq u with hp | hp
  · rw [hp] at hinner h
    obtain ⟨hholds, htook⟩ := h s inner ({l} + m) hinner (hs.of_eq (by abel))
    exact ⟨hholds.of_eq (by abel), htook⟩
  · rw [hp] at hinner h
    obtain ⟨hholds, htook⟩ := h.alone (m := {l} + (p.labels + m)) hinner (hs.of_eq (by abel))
    rw [htook, if_neg Bool.false_ne_true]
    exact ⟨hholds.of_eq (by abel), nofun⟩

/-- A call takes slots for the base and the power, and gives back those of `exp`, of the product and of the list. -/
theorem balances_var (name : String)
    (h : ∀ holder k argument, p = .before holder (.list k [argument]) → Balances argument .alone) :
    Balances (.var l name) p := by
  intro s r m hr hs
  rw [expand.eq_def] at hr
  dsimp only at hr
  split at hr
  case isFalse =>
    cases hr
    exact ⟨hs, nofun⟩
  case isTrue =>
    split at hr
    case h_3 holder k argument =>
      obtain ⟨arg, harg, hr⟩ := bind_eq_ok hr
      cases hr
      have hrelease : (s.take.2.take.2.release [l, holder, k]).Holds
          ((argument.labels : Multiset Id) + ({s.take.2.take.1} + ({s.take.1} + m))) := by
        refine Slots.Holds.release (Slots.Holds.of_eq hs.take.take ?_)
        rw [Place.labels, labels_list, List.flatMap_singleton, labels_var, ← Multiset.cons_coe, ← Multiset.cons_coe,
          ← Multiset.cons_coe k [], ← Multiset.cons_coe k, ← Multiset.singleton_add, ← Multiset.singleton_add holder,
          ← Multiset.singleton_add k, ← Multiset.singleton_add k, Multiset.coe_nil, Multiset.coe_singleton]
        abel
      obtain ⟨hholds, -⟩ := (h holder k argument rfl).alone harg hrelease
      refine ⟨hholds.of_eq ?_, fun _ => ⟨holder, _, rfl⟩⟩
      rw [labels_binary, labels_var, ← Multiset.cons_coe, ← Multiset.coe_add, Multiset.coe_singleton,
        ← Multiset.singleton_add, if_pos rfl]
      abel
    all_goals cases hr

theorem balances_product (ha : Balances a (.before l b)) (hb : Balances b p.ofRight) :
    Balances (.binary l .mul a b) p := by
  intro s r m hr hs
  rw [expand.eq_def] at hr
  obtain ⟨left, hleft, hr⟩ := bind_eq_ok hr
  rw [labels_binary, ← Multiset.cons_coe, ← Multiset.singleton_add, ← Multiset.coe_add] at hs
  obtain ⟨hholds, -⟩ := ha s left (p.labels + m) hleft (hs.of_eq (by rw [Place.labels]; abel))
  split at hr
  case isTrue htook =>
    cases hr
    exact ⟨hholds.of_eq (by rw [htook, if_pos rfl, if_neg Bool.false_ne_true, zero_add]), nofun⟩
  case isFalse htook =>
    obtain ⟨right, hright, hr⟩ := bind_eq_ok hr
    cases hr
    have hplace : (if left.tookNext then 0 else (Place.before l b).labels) = {l} + (b.labels : Multiset Id) :=
      if_neg htook
    rw [hplace] at hholds
    obtain ⟨hrest, hnext⟩ := hb left.slots right ({l} + ((left.result.labels : Multiset Id) + m)) hright
      (hholds.of_eq (by rw [Place.labels_ofRight]; abel))
    rw [Place.labels_ofRight] at hrest
    refine ⟨hrest.of_eq ?_, fun h => ?_⟩
    · rw [labels_binary, ← Multiset.cons_coe, ← Multiset.singleton_add, ← Multiset.coe_add]
      abel
    · obtain ⟨holder, next, hp⟩ := hnext h
      cases p with
      | before holder next => exact ⟨holder, next, rfl⟩
      | _ => cases hp

theorem balances_binary {op : BinaryOp} (hop : op ≠ .mul) (ha : Balances a .alone) (hb : Balances b .alone) :
    Balances (.binary l op a b) p := by
  intro s r m hr hs
  rw [expand_binary l hop] at hr
  obtain ⟨left, hleft, hr⟩ := bind_eq_ok hr
  obtain ⟨right, hright, hr⟩ := bind_eq_ok hr
  cases hr
  rw [labels_binary, ← Multiset.cons_coe, ← Multiset.singleton_add, ← Multiset.coe_add] at hs ⊢
  obtain ⟨hl, -⟩ := ha.alone (m := (b.labels : Multiset Id) + ({l} + (p.labels + m))) hleft (hs.of_eq (by abel))
  obtain ⟨hr, -⟩ := hb.alone (m := (left.result.labels : Multiset Id) + ({l} + (p.labels + m))) hright
    (hl.of_eq (by abel))
  exact ⟨hr.of_eq (by rw [if_neg Bool.false_ne_true]; abel), nofun⟩

theorem expandAll_holds {ts : List (Tree Id α)} (h : ∀ t ∈ ts, Balances t .alone) {r : Expanded (List (Tree Id α))}
    (hr : expandAll ts s = .ok r) (hs : s.Holds ((ts.flatMap labels : Multiset Id) + m)) :
    r.slots.Holds ((r.result.flatMap labels : Multiset Id) + m) ∧ r.tookNext = false := by
  induction ts generalizing s r m with
  | nil =>
    rw [expandAll] at hr
    cases hr
    exact ⟨hs, rfl⟩
  | cons t ts ih =>
    rw [expandAll] at hr
    obtain ⟨first, hfirst, hr⟩ := bind_eq_ok hr
    obtain ⟨others, hothers, hr⟩ := bind_eq_ok hr
    cases hr
    rw [List.flatMap_cons, ← Multiset.coe_add, add_assoc] at hs ⊢
    obtain ⟨hholds, -⟩ := (h t List.mem_cons_self).alone hfirst hs
    have hrest := ih (m := (first.result.labels : Multiset Id) + m) (fun u hu => h u (List.mem_cons_of_mem _ hu))
      hothers
      (hholds.of_eq (by abel))
    exact ⟨hrest.1.of_eq (by abel), rfl⟩

theorem balances_list {items : List (Tree Id α)} (h : ∀ t ∈ items, Balances t .alone) : Balances (.list l items) p := by
  intro s r m hr hs
  rw [expand.eq_def] at hr
  obtain ⟨inner, hinner, hr⟩ := bind_eq_ok hr
  cases hr
  rw [labels_list, ← Multiset.cons_coe, ← Multiset.singleton_add] at hs ⊢
  obtain ⟨hholds, htook⟩ := expandAll_holds (m := {l} + (p.labels + m)) h hinner (hs.of_eq (by abel))
  rw [htook, if_neg Bool.false_ne_true]
  exact ⟨hholds.of_eq (by abel), nofun⟩

/-- **Expanding calls keeps account of the slots.** -/
theorem balances (t : Tree Id α) (p : Place α) : Balances t p := by
  induction hn : t.size + p.size using Nat.strong_induction_on generalizing t p with
  | _ n ih =>
    subst hn
    cases t with
    | literal l v | infinity l => exact balances_leaf fun s => by rw [expand.eq_def]; rfl
    | var l name =>
      refine balances_var name fun holder k argument hp => ih _ ?_ argument .alone rfl
      subst hp
      simp only [Tree.size, Tree.sizeAll, Place.size_alone, Place.size_before]
      omega
    | negate l u =>
      have hsize := p.size_underSign_le u
      exact balances_negate (ih _ (by simp only [Tree.size]; omega) u _ rfl)
    | binary l op a b =>
      by_cases hop : op = .mul
      · subst hop
        have hsize := p.size_ofRight
        exact balances_product (ih _ (by simp only [Tree.size, Place.size_before]; omega) a _ rfl)
          (ih _ (by simp only [Tree.size]; omega) b _ rfl)
      · exact balances_binary hop (ih _ (by simp only [Tree.size, Place.size_alone]; omega) a _ rfl)
          (ih _ (by simp only [Tree.size, Place.size_alone]; omega) b _ rfl)
    | list l items =>
      refine balances_list fun t ht => ih _ ?_ t .alone rfl
      have hsize := size_lt_of_mem_children (t := .list l items) ht
      rw [Place.size_alone]
      omega

theorem expandCalls_holds {s' : Slots} (h : expandCalls t s = .ok (u, s')) (hs : s.Holds (t.labels : Multiset Id)) :
    s'.Holds (u.labels : Multiset Id) := by
  obtain ⟨r, hr, h⟩ := bind_eq_ok h
  cases h
  obtain ⟨hholds, -⟩ := (balances t .alone).alone (m := 0) hr (hs.of_eq (add_zero _))
  exact hholds.of_eq (add_zero _).symm

/-! ## Groups -/

mutual

/-- **Dissolving groups** frees the labels that it takes away. -/
theorem ungroup_labels (t : Tree ι α) (free : List ι) :
    ((ungroup t free).2 : Multiset ι) + (ungroup t free).1.labels = (free : Multiset ι) + t.labels := by
  match t with
  | .literal _ _ | .var _ _ | .infinity _ => rfl
  | .negate l t =>
    have ht := ungroup_labels t free
    rw [ungroup, labels_negate, labels_negate, ← Multiset.cons_coe, ← Multiset.cons_coe, Multiset.add_cons,
      Multiset.add_cons]
    exact congrArg (l ::ₘ ·) ht
  | .binary l op a b =>
    have ha := ungroup_labels a free
    have hb := ungroup_labels b (ungroup a free).2
    rw [ungroup, labels_binary, labels_binary, ← Multiset.cons_coe, ← Multiset.cons_coe, Multiset.add_cons,
      Multiset.add_cons, ← Multiset.coe_add, ← Multiset.coe_add]
    refine congrArg (l ::ₘ ·) ?_
    rw [add_left_comm, hb, add_left_comm, ← add_assoc, ← add_assoc, ha]
  | .list l items =>
    have hitems := ungroupAll_labels items free
    rw [ungroup, labels_list, ← Multiset.cons_coe, Multiset.add_cons, ← hitems]
    split
    case h_1 u free' heq =>
      rw [heq, List.flatMap_singleton, ← Multiset.cons_coe, Multiset.cons_add]
    case h_2 us free' _ heq =>
      rw [heq, labels_list, ← Multiset.cons_coe, Multiset.add_cons]

theorem ungroupAll_labels (ts : List (Tree ι α)) (free : List ι) :
    ((ungroupAll ts free).2 : Multiset ι) + ((ungroupAll ts free).1.flatMap labels : List ι) =
      (free : Multiset ι) + (ts.flatMap labels : List ι) := by
  match ts with
  | [] => rfl
  | t :: ts =>
    have ht := ungroup_labels t free
    have hts := ungroupAll_labels ts (ungroup t free).2
    rw [ungroupAll, List.flatMap_cons, List.flatMap_cons, ← Multiset.coe_add, ← Multiset.coe_add, add_left_comm, hts,
      add_left_comm, ← add_assoc, ← add_assoc, ht]

end

end Reader

/-! ## Texts -/

namespace Expr

/-- The expression of a tree without labels is whole. -/
theorem whole_ofTerm (t : Term α) : (ofTree t).Whole := by
  obtain ⟨a, -, ha⟩ := build_plant t
  exact ha.whole

/-- **An expression that is read from a text is whole.** -/
theorem whole_ofText [Scalar α] {text : String} {e : Expr α} (h : ofText text = .ok e) : e.Whole := by
  rw [ofText] at h
  split at h
  case h_1 => cases h
  case h_2 t ht =>
    have hplaced : (t.place {}).2.Holds ((t.place {}).1.labels : Multiset Id) :=
      (whole_iff.mp (whole_ofTerm t)).of_eq (congrArg _ (List.flatMap_singleton ..).symm)
    change settle (t.place {}).1 (t.place {}).2 = .ok e at h
    rw [settle] at h
    split at h
    case h_1 => cases h
    case h_2 u s hcalls =>
      have hholds := Reader.expandCalls_holds hcalls hplaced
      cases h
      refine whole_iff.mpr ?_
      have hungroup := Reader.ungroup_labels u s.free
      change ((Reader.ungroup u s.free).2 : Multiset Id) + ([(Reader.ungroup u s.free).1].flatMap labels : List Id) =
        handlesBelow s.size
      rw [List.flatMap_singleton, hungroup]
      exact hholds

end Expr

end SignalFlow
