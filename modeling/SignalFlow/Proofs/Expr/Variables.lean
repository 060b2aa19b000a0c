import SignalFlow.Proofs.Expr.Value
import SignalFlow.Proofs.Expr.Walk

/-!
# Variables and values

A tree has a value if its variables have values and all its lists have a single item (`exists_value_iff`); otherwise the
error is that of a variable or says that a list has no value (`value_error`).

`subst` puts a tree in the place of every variable. The value of the result is the value of the tree, whose variables
have the values of what was put there (`value_subst`).
-/

namespace SignalFlow.Tree

variable {ι α : Type}

/-! ## Names -/

theorem mem_dedupSorted {x : String} (names : List String) : x ∈ dedupSorted names ↔ x ∈ names := by
  fun_induction dedupSorted names with
  | case1 => rfl
  | case2 y => rfl
  | case3 y z rest h ih =>
    rw [ih, beq_iff_eq.mp h]
    simp
  | case4 y z rest _ ih => rw [List.mem_cons, ih, ← List.mem_cons]

theorem mem_variableNames {x : String} {t : Tree ι α} :
    x ∈ t.variableNames ↔ ∃ u ∈ t.preorder, u.name? = some x := by
  rw [variableNames, mem_dedupSorted, List.mem_mergeSort, List.mem_filterMap]

/-- **The variables of a tree**: the root, if it is one, and those of the children. -/
theorem mem_variableNames_children {x : String} {t : Tree ι α} :
    x ∈ t.variableNames ↔ t.name? = some x ∨ ∃ c ∈ t.children, x ∈ c.variableNames := by
  simp only [mem_variableNames]
  rw [preorder_eq, List.exists_mem_cons_iff]
  simp only [List.mem_flatMap]
  constructor
  · rintro (h | ⟨u, ⟨c, hc, hu⟩, hx⟩)
    · exact .inl h
    · exact .inr ⟨c, hc, u, hu, hx⟩
  · rintro (h | ⟨c, hc, u, hu, hx⟩)
    · exact .inl h
    · exact .inr ⟨u, ⟨c, hc, hu⟩, hx⟩

@[simp] theorem mem_variableNames_var {x name : String} {l : ι} :
    x ∈ (var l name : Tree ι α).variableNames ↔ x = name := by
  simp [mem_variableNames_children (t := var l name), name?, children, eq_comm]

@[simp] theorem mem_variableNames_negate {x : String} {l : ι} {t : Tree ι α} :
    x ∈ (negate l t).variableNames ↔ x ∈ t.variableNames := by
  simp [mem_variableNames_children (t := negate l t), name?, children]

@[simp] theorem mem_variableNames_binary {x : String} {l : ι} {op : BinaryOp} {a b : Tree ι α} :
    x ∈ (binary l op a b).variableNames ↔ x ∈ a.variableNames ∨ x ∈ b.variableNames := by
  simp [mem_variableNames_children (t := binary l op a b), name?, children]

@[simp] theorem mem_variableNames_list {x : String} {l : ι} {items : List (Tree ι α)} :
    x ∈ (list l items).variableNames ↔ ∃ t ∈ items, x ∈ t.variableNames := by
  simp [mem_variableNames_children (t := list l items), name?, children]

/-! ## When a tree has a value -/

/-- An argument list has a single item. -/
def IsSingle : Tree ι α → Prop
  | .list _ items => items.length = 1
  | _ => True

section Values

variable [Scalar α] {load : String → Except ExprError α}

theorem value_negate_eq_ok {l : ι} {t : Tree ι α} {v : α} :
    (negate l t).value load = .ok v ↔ ∃ x, t.value load = .ok x ∧ v = Scalar.neg x := by
  rw [value]
  cases t.value load <;> simp [bind, Except.bind, pure, Except.pure, eq_comm]

theorem value_binary_eq_ok {l : ι} {op : BinaryOp} {a b : Tree ι α} {v : α} :
    (binary l op a b).value load = .ok v ↔
      ∃ x y, a.value load = .ok x ∧ b.value load = .ok y ∧ v = op.apply x y := by
  rw [value]
  cases a.value load <;> cases b.value load <;> simp [bind, Except.bind, pure, Except.pure, eq_comm]

theorem value_singleton (l : ι) (t : Tree ι α) : (list l [t]).value load = t.value load := by
  rw [value, valueAll, valueAll]
  cases t.value load <;> rfl

/-- A list has a value only if it has a single item. -/
theorem value_list_eq_ok {l : ι} {items : List (Tree ι α)} {v : α} :
    (list l items).value load = .ok v ↔ ∃ t, items = [t] ∧ t.value load = .ok v := by
  constructor
  · intro h
    rw [value] at h
    cases hvs : valueAll load items with
    | error e => rw [hvs] at h; cases h
    | ok vs =>
      have hlength := length_valueAll hvs
      rw [hvs] at h
      cases vs with
      | nil => cases h
      | cons w ws =>
        cases ws with
        | nil =>
          obtain ⟨t, rfl⟩ := List.length_eq_one_iff.mp hlength.symm
          refine ⟨t, rfl, ?_⟩
          rw [← value_singleton l t, value, hvs]
          exact h
        | cons w' ws => cases h
  · rintro ⟨t, rfl, ht⟩
    rw [value_singleton, ht]

theorem valueAll_error {ts : List (Tree ι α)} {err : ExprError} (h : valueAll load ts = .error err) :
    ∃ t ∈ ts, t.value load = .error err := by
  induction ts with
  | nil => cases h
  | cons t ts ih =>
    rw [valueAll] at h
    cases ht : t.value load with
    | error e =>
      rw [ht] at h
      cases h
      exact ⟨t, List.mem_cons_self, ht⟩
    | ok v =>
      cases hts : valueAll load ts with
      | error e =>
        rw [ht, hts] at h
        cases h
        obtain ⟨u, hu, herr⟩ := ih hts
        exact ⟨u, List.mem_cons_of_mem _ hu, herr⟩
      | ok vs => rw [ht, hts] at h; cases h

/-- A node lets the tree have a value: a variable has one, and a list has a single item. -/
def Admits (load : String → Except ExprError α) (u : Tree ι α) : Prop :=
  u.IsSingle ∧ ∀ x, u.name? = some x → ∃ v, load x = .ok v

theorem exists_value_iff_everywhere {t : Tree ι α} : (∃ v, t.value load = .ok v) ↔ t.Everywhere (Admits load) := by
  induction t using nodeInduction with
  | literal l v => simp [value, Admits, IsSingle, name?]
  | var l name => simp [value, Admits, IsSingle, name?]
  | infinity l => simp [value, Admits, IsSingle, name?]
  | negate l t ih =>
    have hroot : Admits load (negate l t) := ⟨trivial, nofun⟩
    rw [everywhere_negate, ← ih, and_iff_right hroot]
    simp only [value_negate_eq_ok]
    exact ⟨fun ⟨_, x, hx, _⟩ => ⟨x, hx⟩, fun ⟨x, hx⟩ => ⟨_, x, hx, rfl⟩⟩
  | binary l op a b iha ihb =>
    have hroot : Admits load (binary l op a b) := ⟨trivial, nofun⟩
    rw [everywhere_binary, ← iha, ← ihb, and_iff_right hroot]
    simp only [value_binary_eq_ok]
    exact ⟨fun ⟨_, x, y, hx, hy, _⟩ => ⟨⟨x, hx⟩, y, hy⟩, fun ⟨⟨x, hx⟩, y, hy⟩ => ⟨_, x, y, hx, hy, rfl⟩⟩
  | list l items ih =>
    have hroot : Admits load (list l items) ↔ ∃ t, items = [t] :=
      ⟨fun h => List.length_eq_one_iff.mp h.1, fun h => ⟨List.length_eq_one_iff.mpr h, nofun⟩⟩
    rw [everywhere_list, hroot]
    simp only [value_list_eq_ok]
    constructor
    · rintro ⟨v, t, rfl, ht⟩
      exact ⟨⟨t, rfl⟩, fun u hu => (ih u hu).mp (List.mem_singleton.mp hu ▸ ⟨v, ht⟩)⟩
    · rintro ⟨⟨t, rfl⟩, hitems⟩
      have ht := List.mem_singleton_self t
      obtain ⟨v, hv⟩ := (ih t ht).mpr (hitems t ht)
      exact ⟨v, t, rfl, hv⟩

/-- **A tree has a value** if its variables have values and all its lists a single item. -/
theorem exists_value_iff {t : Tree ι α} :
    (∃ v, t.value load = .ok v) ↔ (∀ x ∈ t.variableNames, ∃ v, load x = .ok v) ∧ t.Everywhere IsSingle := by
  rw [exists_value_iff_everywhere]
  constructor
  · intro h
    refine ⟨fun x hx => ?_, h.imp fun u hu => hu.1⟩
    obtain ⟨u, hu, hname⟩ := mem_variableNames.mp hx
    exact (h u hu).2 x hname
  · rintro ⟨hnames, hsingle⟩ u hu
    exact ⟨hsingle u hu, fun x hname => hnames x (mem_variableNames.mpr ⟨u, hu, hname⟩)⟩

/-- **An error is that of a variable**, or says that a list has no value. -/
theorem value_error {t : Tree ι α} {err : ExprError} (h : t.value load = .error err) :
    (∃ x ∈ t.variableNames, load x = .error err) ∨ err = .notEvaluable := by
  induction t using nodeInduction with
  | literal l v => cases h
  | infinity l => cases h
  | var l name => exact .inl ⟨name, mem_variableNames_var.mpr rfl, h⟩
  | negate l t ih =>
    rw [value] at h
    cases ht : t.value load with
    | ok v => rw [ht] at h; cases h
    | error e =>
      rw [ht] at h
      cases h
      simpa using ih ht
  | binary l op a b iha ihb =>
    rw [value] at h
    cases ha : a.value load with
    | error e =>
      rw [ha] at h
      cases h
      refine (iha ha).imp_left fun ⟨x, hx, herr⟩ => ⟨x, mem_variableNames_binary.mpr (.inl hx), herr⟩
    | ok v =>
      cases hb : b.value load with
      | error e =>
        rw [ha, hb] at h
        cases h
        refine (ihb hb).imp_left fun ⟨x, hx, herr⟩ => ⟨x, mem_variableNames_binary.mpr (.inr hx), herr⟩
      | ok w => rw [ha, hb] at h; cases h
  | list l items ih =>
    rw [value] at h
    cases hvs : valueAll load items with
    | error e =>
      rw [hvs] at h
      cases h
      obtain ⟨t, ht, herr⟩ := valueAll_error hvs
      refine (ih t ht herr).imp_left fun ⟨x, hx, hload⟩ => ⟨x, mem_variableNames_list.mpr ⟨t, ht, hx⟩, hload⟩
    | ok vs =>
      rw [hvs] at h
      cases vs with
      | nil => cases h; exact .inr rfl
      | cons w ws =>
        cases ws with
        | nil => cases h
        | cons w' ws => cases h; exact .inr rfl

end Values

/-! ## Trees in the place of variables -/

mutual

/-- **The tree with a tree in the place of every variable.** -/
def subst (σ : String → Term α) : Tree ι α → Term α
  | .literal _ v => .literal () v
  | .var _ name => σ name
  | .infinity _ => .infinity ()
  | .negate _ t => .negate () (t.subst σ)
  | .binary _ op a b => .binary () op (a.subst σ) (b.subst σ)
  | .list _ items => .list () (substAll σ items)

/-- Several trees with a tree in the place of every variable. -/
def substAll (σ : String → Term α) : List (Tree ι α) → List (Term α)
  | [] => []
  | t :: ts => t.subst σ :: substAll σ ts

end

theorem substAll_eq (σ : String → Term α) (ts : List (Tree ι α)) : substAll σ ts = ts.map (subst σ) := by
  induction ts with
  | nil => rfl
  | cons t ts ih => rw [substAll, ih, List.map_cons]

/-- Only what is put in the place of the tree's own variables matters. -/
theorem subst_congr {σ τ : String → Term α} {t : Tree ι α} (h : ∀ x ∈ t.variableNames, σ x = τ x) :
    t.subst σ = t.subst τ := by
  induction t using nodeInduction with
  | literal l v => rfl
  | infinity l => rfl
  | var l name => exact h name (mem_variableNames_var.mpr rfl)
  | negate l t ih => rw [subst, subst, ih fun x hx => h x (mem_variableNames_negate.mpr hx)]
  | binary l op a b iha ihb =>
    rw [subst, subst, iha fun x hx => h x (mem_variableNames_binary.mpr (.inl hx)),
      ihb fun x hx => h x (mem_variableNames_binary.mpr (.inr hx))]
  | list l items ih =>
    rw [subst, subst, substAll_eq, substAll_eq, List.map_congr_left fun t ht =>
      ih t ht fun x hx => h x (mem_variableNames_list.mpr ⟨t, ht, hx⟩)]

section Values

variable [Scalar α] {load : String → Except ExprError α}

theorem valueAll_congr {κ : Type} {load' : String → Except ExprError α} {f : Tree ι α → Tree κ α}
    {ts : List (Tree ι α)} (h : ∀ t ∈ ts, (f t).value load = t.value load') :
    valueAll load (ts.map f) = valueAll load' ts := by
  induction ts with
  | nil => rfl
  | cons t ts ih =>
    rw [List.map_cons, valueAll, valueAll, h t List.mem_cons_self, ih fun u hu => h u (List.mem_cons_of_mem _ hu)]

/-- **The value after a substitution**, if the variables have the values of what is put in their place. -/
theorem value_subst {σ : String → Term α} {load' : String → Except ExprError α} {t : Tree ι α}
    (h : ∀ x ∈ t.variableNames, (σ x).value load = load' x) : (t.subst σ).value load = t.value load' := by
  induction t using nodeInduction with
  | literal l v => rfl
  | infinity l => rfl
  | var l name => exact h name (mem_variableNames_var.mpr rfl)
  | negate l t ih => rw [subst, value, value, ih fun x hx => h x (mem_variableNames_negate.mpr hx)]
  | binary l op a b iha ihb =>
    rw [subst, value, value, iha fun x hx => h x (mem_variableNames_binary.mpr (.inl hx)),
      ihb fun x hx => h x (mem_variableNames_binary.mpr (.inr hx))]
  | list l items ih =>
    rw [subst, value, value, substAll_eq, valueAll_congr fun t ht =>
      ih t ht fun x hx => h x (mem_variableNames_list.mpr ⟨t, ht, hx⟩)]

end Values

end SignalFlow.Tree
