import SignalFlow.Proofs.Expr.Recursive

/-!
# Tables with the same values

A number and the expression that is this number are alike as bindings (`Binding.Alike`), and tables whose bindings are
alike evaluate every expression to the same result (`Expr.evaluate_of_alike`). Only a name that is bound to an
expression can be met in a circle; but the expression of a number has no names, so it is never under evaluation when a
name is met.
-/

namespace SignalFlow

variable {α : Type}

/-- **Bindings that are alike**: the same, or a number and the expression that is this number. -/
inductive Binding.Alike : Binding α → Binding α → Prop
  | same (b) : Alike b b
  | number {v : α} {e : Expr α} (h : e.tree.term = .literal () v) : Alike (.value v) (.expr e)

namespace Bindings

variable {T U : Bindings α}

/-! ## Binding a name -/

theorem lookup_filter_ne (entries : List (String × Binding α)) (name x : String) :
    (entries.filter (·.1 ≠ name)).lookup x = if x = name then none else entries.lookup x := by
  induction entries with
  | nil => simp
  | cons p rest ih =>
    obtain ⟨k, c⟩ := p
    by_cases hk : k = name
    · rw [List.filter_cons_of_neg (by simpa using hk), ih, List.lookup_cons]
      by_cases hx : x = name
      · rw [if_pos hx, if_pos hx]
      · have hxk : (x == k) = false := beq_eq_false_iff_ne.mpr (hk ▸ hx)
        rw [if_neg hx, if_neg hx, hxk]
    · rw [List.filter_cons_of_pos (by simpa using hk), List.lookup_cons, List.lookup_cons, ih]
      by_cases hx : x = name
      · have hxk : (x == k) = false := beq_eq_false_iff_ne.mpr fun h => hk (h.symm.trans hx)
        rw [if_pos hx, if_pos hx, hxk]
      · rw [if_neg hx, if_neg hx]

/-- **A name that is bound has its binding**, every other name the one that it had. -/
theorem get?_insert (T : Bindings α) (name : String) (b : Binding α) (x : String) :
    (T.insert name b).get? x = if x = name then some b else T.get? x := by
  show ((T.entries.filter (·.1 ≠ name)) ++ [(name, b)]).lookup x = _
  rw [List.lookup_append, lookup_filter_ne]
  by_cases hx : x = name
  · simp [hx]
  · have hxk : (x == name) = false := beq_eq_false_iff_ne.mpr hx
    rw [if_neg hx, if_neg hx, List.lookup_cons, hxk]
    exact Option.or_none

/-! ## Tables -/

/-- **Tables whose bindings are alike.** -/
def Alike (T U : Bindings α) : Prop := ∀ x, Option.Rel Binding.Alike (T.get? x) (U.get? x)

theorem Alike.refl (T : Bindings α) : T.Alike T := by
  intro x
  cases T.get? x with
  | none => exact .none
  | some b => exact .some (.same b)

theorem Alike.insert {b c : Binding α} (h : T.Alike U) (hbc : b.Alike c) (name : String) :
    (T.insert name b).Alike (U.insert name c) := by
  intro x
  rw [get?_insert, get?_insert]
  split
  case isTrue => exact .some hbc
  case isFalse => exact h x

variable [Scalar α]

theorem value_of_term_literal {ι : Type} {t : Tree ι α} {v : α} (h : t.term = .literal () v)
    (load : String → Except ExprError α) : t.value load = .ok v := by
  cases t <;> cases h
  rfl

theorem value_of_term_var {ι : Type} {t : Tree ι α} {x : String} (h : t.term = .var () x)
    (load : String → Except ExprError α) : t.value load = load x := by
  cases t <;> cases h
  rfl

/-- **Names have the same values in tables that are alike.** The names under evaluation are bound to expressions in the
first table, so none of them is one that only the second binds to an expression. -/
theorem Alike.valueWithin_eq (h : T.Alike U) (active : List String)
    (hactive : ∀ x ∈ active, ∃ e, T.get? x = some (.expr e)) : T.valueWithin active = U.valueWithin active := by
  induction active using activeInduction T with
  | h active ih =>
    funext x
    have hx := h x
    rw [Bindings.valueWithin_eq T, Bindings.valueWithin_eq U]
    generalize hT : T.get? x = b at hx
    generalize U.get? x = c at hx
    cases hx with
    | none => rfl
    | @some b c hbc =>
      cases hbc with
      | number hterm =>
        have hfree : x ∉ active := by
          intro hmem
          obtain ⟨e, he⟩ := hactive x hmem
          cases hT.symm.trans he
        simp only [if_neg hfree, value_of_term_literal hterm]
      | same =>
        cases b with
        | value v => rfl
        | expr e =>
          by_cases hmem : x ∈ active
          · simp only [if_pos hmem]
          · have hmore : ∀ y ∈ x :: active, ∃ e, T.get? y = some (.expr e) :=
              List.forall_mem_cons.mpr ⟨⟨e, hT⟩, hactive⟩
            simp only [if_neg hmem, ih x e hT hmem hmore]

end Bindings

/-- **Expressions have the same results with tables that are alike.** -/
theorem Expr.evaluate_of_alike [Scalar α] {T U : Bindings α} (h : T.Alike U) (e : Expr α) :
    e.evaluate T = e.evaluate U := by
  rw [evaluate_eq_valueWithin, evaluate_eq_valueWithin, h.valueWithin_eq [] (List.forall_mem_nil _)]

end SignalFlow
