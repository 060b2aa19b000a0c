import Mathlib.Logic.Relation
import SignalFlow.Proofs.Expr.Variables

/-!
# Evaluation as substitution

A name *uses* the variables of the expression it is bound to, and a tree *reaches* its variables and whatever they use,
at any distance. `Expands` relates a name to its tree with every bound expression put in place.

`evaluate_exact`: evaluation succeeds just when the tree is resolvable — every name it reaches is bound, none of them
reaches itself, and all lists met have a single item — and then gives the value of the expanded tree. An error names a
reached name that is unbound or lies on a cycle.

The names under evaluation are the ones that must not be reached again. All proofs are by induction on how many names
are left to enter (`activeInduction`).
-/

namespace SignalFlow

open Relation

namespace Bindings

variable {ι α : Type}

/-! ## Names through bindings -/

/-- **A name uses another** that occurs in the expression it is bound to. -/
def Uses (T : Bindings α) (x y : String) : Prop := ∃ e, T.get? x = some (.expr e) ∧ y ∈ e.tree.variableNames

/-- **A tree reaches a name**: one of its variables is this name or uses it, at any distance. -/
def Reaches (T : Bindings α) (t : Tree ι α) (y : String) : Prop :=
  ∃ x ∈ t.variableNames, ReflTransGen T.Uses x y

/-- A name that uses itself, at some distance. -/
def Cyclic (T : Bindings α) (x : String) : Prop := TransGen T.Uses x x

/-- **A tree is resolvable**: the names it reaches are bound and not cyclic, and lists have a single item in the tree
and in what these names are bound to. -/
structure Resolvable (T : Bindings α) (t : Tree ι α) : Prop where
  bound : ∀ x, T.Reaches t x → ∃ b, T.get? x = some b
  acyclic : ∀ x, T.Reaches t x → ¬T.Cyclic x
  single : t.Everywhere Tree.IsSingle
  single_bound : ∀ x e, T.Reaches t x → T.get? x = some (.expr e) → e.tree.Everywhere Tree.IsSingle

/-- **The tree of a name**: the variable, or what the name is bound to with the trees of its variables put in place. -/
inductive Expands (T : Bindings α) : String → Term α → Prop where
  | plain {x : String} (h : ∀ e, T.get? x ≠ some (.expr e)) : Expands T x (.var () x)
  | bound {x : String} {e : Expr α} (σ : String → Term α) (h : T.get? x = some (.expr e))
      (hσ : ∀ y ∈ e.tree.variableNames, Expands T y (σ y)) : Expands T x (e.tree.subst σ)

/-- **The tree with every variable that is bound to an expression replaced** by the tree of its name. -/
def ExpandsTo (T : Bindings α) (t : Tree ι α) (u : Term α) : Prop :=
  ∃ σ : String → Term α, (∀ x ∈ t.variableNames, T.Expands x (σ x)) ∧ u = t.subst σ

/-- **The bindings to numbers.** -/
def numbers (T : Bindings α) : Bindings α :=
  ⟨T.entries.filter fun p => match p.2 with | .value _ => true | .expr _ => false⟩

variable {T : Bindings α}

theorem Reaches.of_mem {t : Tree ι α} {x : String} (h : x ∈ t.variableNames) : T.Reaches t x := ⟨x, h, .refl⟩

/-- What a bound expression reaches is reached through its name. -/
theorem Reaches.bound {t : Tree ι α} {x y : String} {e : Expr α} (hx : x ∈ t.variableNames)
    (he : T.get? x = some (.expr e)) (hy : T.Reaches e.tree y) : T.Reaches t y := by
  obtain ⟨z, hz, hzy⟩ := hy
  exact ⟨x, hx, .head ⟨e, he, hz⟩ hzy⟩

/-- A bound expression reaches what its name uses, at any distance. -/
theorem transGen_iff_reaches {x y : String} {e : Expr α} (he : T.get? x = some (.expr e)) :
    TransGen T.Uses x y ↔ T.Reaches e.tree y := by
  rw [TransGen.head'_iff]
  constructor
  · rintro ⟨z, ⟨e', he', hz⟩, hzy⟩
    cases he.symm.trans he'
    exact ⟨z, hz, hzy⟩
  · rintro ⟨z, hz, hzy⟩
    exact ⟨z, ⟨e, he, hz⟩, hzy⟩

/-- What a tree reaches is a variable of its own, or reached by the expression of one. -/
theorem Reaches.cases {t : Tree ι α} {y : String} (h : T.Reaches t y) :
    ∃ x ∈ t.variableNames, y = x ∨ ∃ e, T.get? x = some (.expr e) ∧ T.Reaches e.tree y := by
  obtain ⟨x, hx, hxy⟩ := h
  refine ⟨x, hx, ?_⟩
  rcases hxy.cases_head with rfl | ⟨z, ⟨e, he, hz⟩, hzy⟩
  · exact .inl rfl
  · exact .inr ⟨e, he, z, hz, hzy⟩

/-- A resolvable tree reaches resolvable expressions only. -/
theorem Resolvable.bound_tree {t : Tree ι α} {x : String} {e : Expr α} (h : T.Resolvable t)
    (hx : x ∈ t.variableNames) (he : T.get? x = some (.expr e)) : T.Resolvable e.tree where
  bound y hy := h.bound y (.bound hx he hy)
  acyclic y hy := h.acyclic y (.bound hx he hy)
  single := h.single_bound x e (.of_mem hx) he
  single_bound y e' hy := h.single_bound y e' (.bound hx he hy)

theorem Expands.unique {x : String} {u w : Term α} (hu : T.Expands x u) (hw : T.Expands x w) : u = w := by
  induction hu generalizing w with
  | plain h =>
    cases hw with
    | plain => rfl
    | bound _ he => exact absurd he (h _)
  | bound σ he _ ih =>
    cases hw with
    | plain h => exact absurd he (h _)
    | bound τ he' hτ =>
      cases he.symm.trans he'
      exact Tree.subst_congr fun y hy => ih y hy (hτ y hy)

theorem ExpandsTo.unique {t : Tree ι α} {u w : Term α} (hu : T.ExpandsTo t u) (hw : T.ExpandsTo t w) : u = w := by
  obtain ⟨σ, hσ, rfl⟩ := hu
  obtain ⟨τ, hτ, rfl⟩ := hw
  exact Tree.subst_congr fun x hx => (hσ x hx).unique (hτ x hx)

/-- A name bound to a number is bound to it among the numbers. -/
theorem get?_numbers {x : String} {v : α} (h : T.get? x = some (.value v)) : T.numbers.get? x = some (.value v) := by
  obtain ⟨entries⟩ := T
  simp only [get?, numbers] at h ⊢
  induction entries with
  | nil => cases h
  | cons p rest ih =>
    obtain ⟨k, b⟩ := p
    rw [List.lookup_cons] at h
    by_cases hk : x == k
    · simp only [hk] at h
      cases h
      simp [List.lookup_cons, hk]
    · simp only [hk] at h
      cases b <;> simp [List.lookup_cons, hk, ih h]

/-! ## Names under evaluation -/

/-- **Induction on the names left to enter**: entering one that is not under evaluation leaves fewer. -/
theorem activeInduction (T : Bindings α) {motive : List String → Prop}
    (h : ∀ active, (∀ x e, T.get? x = some (.expr e) → x ∉ active → motive (x :: active)) → motive active)
    (active : List String) : motive active := by
  induction hn : remaining T.names active using Nat.strong_induction_on generalizing active with
  | _ n ih =>
    subst hn
    exact h active fun x e he hx => ih _ (remaining_cons_lt (mem_names_of_get? he) hx) _ rfl

variable [Scalar α] {active : List String} {x : String}

theorem resolve_unbound (h : T.get? x = none) : T.resolve x active = .error (.undefinedVariable x) := by
  rw [resolve]
  split <;> simp_all

theorem resolve_value {v : α} (h : T.get? x = some (.value v)) : T.resolve x active = .ok v := by
  rw [resolve]
  split <;> simp_all

theorem resolve_active {e : Expr α} (h : T.get? x = some (.expr e)) (hx : x ∈ active) :
    T.resolve x active = .error (.cyclicBinding x) := by
  rw [resolve]
  split <;> simp_all

/-- **A name bound to an expression** has the value of its tree, with the name under evaluation. -/
theorem resolve_expr {e : Expr α} (h : T.get? x = some (.expr e)) (hx : x ∉ active) :
    T.resolve x active = e.tree.value (T.resolve · (x :: active)) := by
  have hrun : T.run e.tree.code (x :: active) [] = (e.tree.value (T.resolve · (x :: active))).map fun v => [v] := by
    rw [Tree.code, run_codeOnto]
    cases e.tree.value (T.resolve · (x :: active)) with
    | error err => rfl
    | ok v =>
      show T.run [] (x :: active) [v] = .ok [v]
      rw [run]
  rw [resolve]
  split
  · next hnone => rw [hnone] at h; cases h
  · next hvalue => rw [hvalue] at h; cases h
  · next e' hexpr =>
    cases hexpr.symm.trans h
    rw [dif_neg hx, hrun]
    cases e.tree.value (T.resolve · (x :: active)) <;> rfl

/-- **A tree that has a value has an expansion** with this value among the numbers. -/
theorem expandsTo_of_value {ι : Type} {t : Tree ι α} {v : α} (h : t.value (T.resolve · active) = .ok v) :
    ∃ u, T.ExpandsTo t u ∧ u.value T.numbers.valueOf = .ok v := by
  induction active using activeInduction T generalizing ι t v with
  | h active ih =>
    have hnames : ∀ x ∈ t.variableNames,
        ∃ u, T.Expands x u ∧ u.value T.numbers.valueOf = T.resolve x active := by
      intro x hx
      obtain ⟨w, hw⟩ := (Tree.exists_value_iff.mp ⟨v, h⟩).1 x hx
      cases hget : T.get? x with
      | none => rw [resolve_unbound hget] at hw; cases hw
      | some b =>
        cases b with
        | value w =>
          refine ⟨.var () x, .plain fun e he => ?_, ?_⟩
          · rw [hget] at he
            cases he
          · rw [resolve_value hget]
            exact valueOf_value (get?_numbers hget)
        | expr e =>
          by_cases hactive : x ∈ active
          · rw [resolve_active hget hactive] at hw
            cases hw
          · rw [resolve_expr hget hactive] at hw ⊢
            obtain ⟨_, ⟨σ, hσ, rfl⟩, hvalue⟩ := ih x e hget hactive hw
            exact ⟨e.tree.subst σ, .bound σ hget hσ, hvalue.trans hw.symm⟩
    choose! σ hσ using hnames
    exact ⟨t.subst σ, ⟨σ, fun x hx => (hσ x hx).1, rfl⟩, (Tree.value_subst fun x hx => (hσ x hx).2).trans h⟩

/-! ## When evaluation succeeds -/

/-- **A tree that has a value is resolvable**, and reaches no expression under evaluation. -/
theorem resolvable_of_value {ι : Type} {t : Tree ι α} {v : α} (h : t.value (T.resolve · active) = .ok v) :
    T.Resolvable t ∧ ∀ y e, T.Reaches t y → T.get? y = some (.expr e) → y ∉ active := by
  induction active using activeInduction T generalizing ι t v with
  | h active ih =>
    obtain ⟨hnames, hsingle⟩ := Tree.exists_value_iff.mp ⟨v, h⟩
    -- a variable that is bound to an expression is entered, and the tree of the expression has a value in turn
    have hexpr : ∀ x ∈ t.variableNames, ∀ e, T.get? x = some (.expr e) → x ∉ active ∧ T.Resolvable e.tree ∧
        ∀ y e', T.Reaches e.tree y → T.get? y = some (.expr e') → y ∉ x :: active := by
      intro x hx e he
      obtain ⟨w, hw⟩ := hnames x hx
      by_cases hactive : x ∈ active
      · rw [resolve_active he hactive] at hw
        cases hw
      · rw [resolve_expr he hactive] at hw
        exact ⟨hactive, ih x e he hactive hw⟩
    have hbound : ∀ x ∈ t.variableNames, ∃ b, T.get? x = some b := by
      intro x hx
      cases hget : T.get? x with
      | some b => exact ⟨b, rfl⟩
      | none =>
        obtain ⟨w, hw⟩ := hnames x hx
        rw [resolve_unbound hget] at hw
        cases hw
    refine ⟨⟨fun y hy => ?_, fun y hy hcycle => ?_, hsingle, fun y e hy he => ?_⟩, fun y e hy he => ?_⟩
    all_goals obtain ⟨x, hx, rfl | ⟨e', he', hreach⟩⟩ := hy.cases
    · exact hbound y hx
    · exact (hexpr x hx e' he').2.1.bound y hreach
    · obtain ⟨e, he⟩ : ∃ e, T.get? y = some (.expr e) := by
        obtain ⟨z, ⟨e, he, _⟩, _⟩ := TransGen.head'_iff.mp hcycle
        exact ⟨e, he⟩
      exact (hexpr y hx e he).2.2 y e ((transGen_iff_reaches he).mp hcycle) he List.mem_cons_self
    · exact (hexpr x hx e' he').2.1.acyclic y hreach hcycle
    · exact (hexpr y hx e he).2.1.single
    · exact (hexpr x hx e' he').2.1.single_bound y e hreach he
    · exact (hexpr y hx e he).1
    · exact fun hmem => (hexpr x hx e' he').2.2 y e hreach he (List.mem_cons_of_mem _ hmem)

/-- **A resolvable tree has a value** if it reaches no expression under evaluation. -/
theorem value_of_resolvable {ι : Type} {t : Tree ι α} (h : T.Resolvable t)
    (hactive : ∀ y e, T.Reaches t y → T.get? y = some (.expr e) → y ∉ active) :
    ∃ v, t.value (T.resolve · active) = .ok v := by
  induction active using activeInduction T generalizing ι t with
  | h active ih =>
    refine Tree.exists_value_iff.mpr ⟨fun x hx => ?_, h.single⟩
    obtain ⟨b, hb⟩ := h.bound x (.of_mem hx)
    cases b with
    | value v => exact ⟨v, resolve_value hb⟩
    | expr e =>
      have hnew : x ∉ active := hactive x e (.of_mem hx) hb
      rw [resolve_expr hb hnew]
      refine ih x e hb hnew (h.bound_tree hx hb) fun y e' hy he' hmem => ?_
      rcases List.mem_cons.mp hmem with rfl | hmem
      · exact h.acyclic y (.of_mem hx) ((transGen_iff_reaches hb).mpr hy)
      · exact hactive y e' (.bound hx hb hy) he' hmem

/-! ## Errors -/

/-- **An unbound name in an error** is reached. -/
theorem reaches_of_undefinedVariable {ι : Type} {t : Tree ι α}
    (h : t.value (T.resolve · active) = .error (.undefinedVariable x)) : T.Reaches t x ∧ T.get? x = none := by
  induction active using activeInduction T generalizing ι t with
  | h active ih =>
    rcases Tree.value_error h with ⟨y, hy, hload⟩ | hlist
    · cases hget : T.get? y with
      | none =>
        rw [resolve_unbound hget] at hload
        cases hload
        exact ⟨.of_mem hy, hget⟩
      | some b =>
        cases b with
        | value v => rw [resolve_value hget] at hload; cases hload
        | expr e =>
          by_cases hactive : y ∈ active
          · rw [resolve_active hget hactive] at hload
            cases hload
          · rw [resolve_expr hget hactive] at hload
            obtain ⟨hreach, hnone⟩ := ih y e hget hactive hload
            exact ⟨.bound hy hget hreach, hnone⟩
    · cases hlist

/-- **A cyclic name in an error** is reached and uses itself, if every name under evaluation uses the variables of the
tree at some distance. -/
theorem cyclic_of_cyclicBinding {ι : Type} {t : Tree ι α}
    (hactive : ∀ a ∈ active, ∀ y ∈ t.variableNames, TransGen T.Uses a y)
    (h : t.value (T.resolve · active) = .error (.cyclicBinding x)) : T.Reaches t x ∧ T.Cyclic x := by
  induction active using activeInduction T generalizing ι t with
  | h active ih =>
    rcases Tree.value_error h with ⟨y, hy, hload⟩ | hlist
    · cases hget : T.get? y with
      | none => rw [resolve_unbound hget] at hload; cases hload
      | some b =>
        cases b with
        | value v => rw [resolve_value hget] at hload; cases hload
        | expr e =>
          by_cases hmem : y ∈ active
          · rw [resolve_active hget hmem] at hload
            cases hload
            exact ⟨.of_mem hy, hactive x hmem x hy⟩
          · rw [resolve_expr hget hmem] at hload
            have huses : ∀ a ∈ y :: active, ∀ z ∈ e.tree.variableNames, TransGen T.Uses a z := by
              intro a ha z hz
              have hyz : T.Uses y z := ⟨e, hget, hz⟩
              rcases List.mem_cons.mp ha with heq | ha
              · exact heq ▸ .single hyz
              · exact (hactive a ha y hy).tail hyz
            obtain ⟨hreach, hcycle⟩ := ih y e hget hmem huses hload
            exact ⟨.bound hy hget hreach, hcycle⟩
    · cases hlist

end Bindings

namespace Expr

variable {α : Type} [Scalar α]

/-- **Evaluation is substitution, and cycles are found exactly.** An expression has a value just when it is resolvable.
The value is then that of its expansion, of which there is one, with the bindings to numbers. An unbound name in an
error is reached, and a cyclic name is reached and uses itself. -/
theorem evaluate_exact (e : Expr α) (T : Bindings α) :
    ((∃ v, e.evaluate T = .ok v) ↔ T.Resolvable e.tree) ∧
      (∀ v, e.evaluate T = .ok v →
        (∃! u, T.ExpandsTo e.tree u) ∧ ∀ u, T.ExpandsTo e.tree u → (ofTree u).evaluate T.numbers = .ok v) ∧
      (∀ x, e.evaluate T = .error (.undefinedVariable x) → T.Reaches e.tree x ∧ T.get? x = none) ∧
      ∀ x, e.evaluate T = .error (.cyclicBinding x) → T.Reaches e.tree x ∧ T.Cyclic x := by
  simp only [evaluate_eq]
  refine ⟨⟨fun ⟨v, hv⟩ => (Bindings.resolvable_of_value hv).1, fun h => ?_⟩, fun v hv => ?_, fun x hx => ?_,
    fun x hx => ?_⟩
  · exact Bindings.value_of_resolvable h fun y e' _ _ => List.not_mem_nil
  · obtain ⟨u, hu, huv⟩ := Bindings.expandsTo_of_value hv
    refine ⟨⟨u, hu, fun w hw => hw.unique hu⟩, fun w hw => ?_⟩
    rw [hw.unique hu]
    exact (Tree.value_place _ u {}).trans huv
  · exact Bindings.reaches_of_undefinedVariable hx
  · exact Bindings.cyclic_of_cyclicBinding (fun a ha => absurd ha List.not_mem_nil) hx

end Expr

end SignalFlow
