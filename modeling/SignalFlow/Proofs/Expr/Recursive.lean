import SignalFlow.Proofs.Expr.Substitution

/-!
# Evaluation is recursion over trees

A name that is bound to an expression has the value of its tree, whose names are looked up in the same way with the name
under evaluation (`Bindings.valueWithin`). So an expression evaluates to the value of its tree, down to the numbers of
the table (`Expr.evaluate_eq_valueWithin`).

Which error ends an evaluation can be read off the nodes: a variable fails with the error of its name, a list fails
unless it has one item (`Tree.fault?`), and the first node in postorder that fails decides (`Tree.findSome?_fault?`).
-/

namespace SignalFlow

/-- The error of an outcome, if it is one. -/
def errorOf? {ε β : Type} : Except ε β → Option ε
  | .error e => some e
  | .ok _ => none

@[simp] theorem errorOf?_error {ε β : Type} (e : ε) : errorOf? (.error e : Except ε β) = some e := rfl

@[simp] theorem errorOf?_ok {ε β : Type} (b : β) : errorOf? (.ok b : Except ε β) = none := rfl

theorem errorOf?_eq_some {ε β : Type} {x : Except ε β} {e : ε} : errorOf? x = some e ↔ x = .error e := by
  cases x <;> simp

namespace Tree

variable {ι α : Type} [Scalar α] (load : String → Except ExprError α)

/-- **How a node fails** whose operands have values. -/
def fault? : Tree ι α → Option ExprError
  | .var _ name => errorOf? (load name)
  | .list _ items => if items.length = 1 then none else some .notEvaluable
  | _ => none

variable {load}

theorem findSome?_fault?_all {ts : List (Tree ι α)}
    (h : ∀ t ∈ ts, t.postorder.findSome? (fault? load) = errorOf? (t.value load)) :
    (ts.flatMap postorder).findSome? (fault? load) = errorOf? (valueAll load ts) := by
  induction ts with
  | nil => rfl
  | cons t ts ih =>
    rw [List.flatMap_cons, List.findSome?_append, h t List.mem_cons_self,
      ih fun u hu => h u (List.mem_cons_of_mem _ hu), valueAll]
    cases t.value load with
    | error e => rfl
    | ok v => cases valueAll load ts <;> rfl

/-- **The first node that fails decides**, in postorder. -/
theorem findSome?_fault? (t : Tree ι α) : t.postorder.findSome? (fault? load) = errorOf? (t.value load) := by
  induction t using childInduction with
  | h t ih =>
    rw [postorder_eq, List.findSome?_append, findSome?_fault?_all ih, List.findSome?_singleton]
    cases t with
    | literal | infinity => rfl
    | var _ name => exact Option.none_or
    | negate _ t =>
      rw [children, valueAll, value]
      cases t.value load <;> rfl
    | binary _ op a b =>
      rw [children, valueAll, valueAll, value]
      cases a.value load with
      | error e => rfl
      | ok v => cases b.value load <;> rfl
    | list _ items =>
      rw [children, value]
      cases hvs : valueAll load items with
      | error e => rfl
      | ok vs =>
        rw [fault?, ← length_valueAll hvs]
        rcases vs with _ | ⟨v, _ | ⟨w, vs⟩⟩ <;> rfl

end Tree

namespace Bindings

variable {α : Type} [Scalar α]

/-- **The value of a name, by recursion**, while the names in `active` are being evaluated. -/
def valueWithin (T : Bindings α) (active : List String) (name : String) : Except ExprError α :=
  match h : T.get? name with
  | none => .error (.undefinedVariable name)
  | some (.value v) => .ok v
  | some (.expr e) =>
    if hn : name ∈ active then .error (.cyclicBinding name)
    else
      have := remaining_cons_lt (mem_names_of_get? h) hn
      e.tree.value fun x => valueWithin T (name :: active) x
termination_by remaining T.names active

variable {T : Bindings α} {active : List String} {x : String}

theorem valueWithin_eq (T : Bindings α) (active : List String) (x : String) : T.valueWithin active x =
    match T.get? x with
    | none => .error (.undefinedVariable x)
    | some (.value v) => .ok v
    | some (.expr e) =>
      if x ∈ active then .error (.cyclicBinding x) else e.tree.value (T.valueWithin (x :: active)) := by
  rw [valueWithin]
  split
  case h_1 h => simp only [h]
  case h_2 v h => simp only [h]
  case h_3 e h => simp only [h, dite_eq_ite]

/-- **Looking names up is recursion.** -/
theorem resolve_eq_valueWithin (T : Bindings α) (active : List String) :
    (T.resolve · active) = T.valueWithin active := by
  induction active using activeInduction T with
  | h active ih =>
    funext x
    rw [valueWithin_eq]
    split
    case h_1 h => exact resolve_unbound h
    case h_2 v h => exact resolve_value h
    case h_3 e h =>
      split
      case isTrue hx => exact resolve_active h hx
      case isFalse hx => rw [resolve_expr h hx, ih x e h hx]

/-- No lookup ends for want of an operand, or with any other error of a node. -/
theorem valueWithin_ne_invalidNode (f : NodeFault) : T.valueWithin active x ≠ .error (.invalidNode f) := by
  induction active using activeInduction T generalizing x with
  | h active ih =>
    rw [valueWithin_eq]
    split
    case h_1 => exact nofun
    case h_2 => exact nofun
    case h_3 e h =>
      split
      case isTrue => exact nofun
      case isFalse hx =>
        intro herror
        obtain ⟨y, -, hy⟩ | hlist := Tree.value_error herror
        · exact ih x e h hx hy
        · cases hlist

end Bindings

namespace Expr

variable {α : Type} [Scalar α]

/-- **An expression evaluates to the value of its tree**, and the names in it in the same way. -/
theorem evaluate_eq_valueWithin (e : Expr α) (T : Bindings α) : e.evaluate T = e.tree.value (T.valueWithin []) := by
  rw [evaluate_eq, ← Bindings.resolve_eq_valueWithin]
  rfl

/-- No evaluation ends for want of an operand, or with any other error of a node. -/
theorem evaluate_ne_invalidNode (e : Expr α) (T : Bindings α) (f : NodeFault) :
    e.evaluate T ≠ .error (.invalidNode f) := by
  rw [evaluate_eq_valueWithin]
  intro herror
  obtain ⟨y, -, hy⟩ | hlist := Tree.value_error herror
  · exact Bindings.valueWithin_ne_invalidNode f hy
  · cases hlist

end Expr

end SignalFlow
