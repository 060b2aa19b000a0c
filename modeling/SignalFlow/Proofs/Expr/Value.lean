import SignalFlow.Bindings

/-!
# Values by recursion

`Tree.value` evaluates a tree by recursion over its nodes, operands from left to right. The postfix code of a tree
computes just that, on any stack (`run_codeOnto`); so an expression evaluates to the value of its tree (`evaluate_eq`).
Values do not depend on labels, so they survive the placing of nodes, and an expression that joins two others has the
value of its operator on theirs (`evaluate_binary`).
-/

namespace SignalFlow

namespace Tree

variable {ι κ α : Type} [Scalar α]

mutual

/-- **The value of a tree** whose variables have the values of `load`. -/
def value (load : String → Except ExprError α) : Tree ι α → Except ExprError α
  | .literal _ v => .ok v
  | .var _ name => load name
  | .infinity _ => .ok Scalar.undefined
  | .negate _ t => do
    let v ← t.value load
    return Scalar.neg v
  | .binary _ op a b => do
    let v ← a.value load
    let w ← b.value load
    return op.apply v w
  | .list _ items => do
    match ← valueAll load items with
    | [v] => .ok v
    | _ => .error .notEvaluable

/-- The values of several trees, one after the other. -/
def valueAll (load : String → Except ExprError α) : List (Tree ι α) → Except ExprError (List α)
  | [] => .ok []
  | t :: ts => do
    let v ← t.value load
    let vs ← valueAll load ts
    return v :: vs

end

theorem length_valueAll {load : String → Except ExprError α} {ts : List (Tree ι α)} {vs : List α}
    (h : valueAll load ts = .ok vs) : vs.length = ts.length := by
  induction ts generalizing vs with
  | nil => cases h; rfl
  | cons t ts ih =>
    rw [valueAll] at h
    cases ht : t.value load with
    | error e => rw [ht] at h; cases h
    | ok v =>
      cases hts : valueAll load ts with
      | error e => rw [ht, hts] at h; cases h
      | ok ws =>
        rw [ht, hts] at h
        cases h
        exact congrArg (· + 1) (ih hts)

end Tree

namespace Bindings

variable {ι α : Type} [Scalar α]

theorem run_step (T : Bindings α) {i : Instr α} (hload : ∀ name, i ≠ .load name) (rest : List (Instr α))
    (active : List String) (stack : List α) :
    T.run (i :: rest) active stack = (i.step stack >>= fun stack => T.run rest active stack) := by
  rw [run]
  · cases i.step stack <;> rfl
  · exact fun name h => hload name h

theorem run_load (T : Bindings α) (name : String) (rest : List (Instr α)) (active : List String) (stack : List α) :
    T.run (.load name :: rest) active stack =
      (T.resolve name active >>= fun v => T.run rest active (v :: stack)) := by
  rw [run]
  cases T.resolve name active <;> rfl

/-- A name bound to a number has this value. -/
theorem valueOf_value {T : Bindings α} {name : String} {v : α} (h : T.get? name = some (.value v)) :
    T.valueOf name = .ok v := by
  rw [valueOf, resolve]
  split
  · next hnone => rw [hnone] at h; cases h
  · next hvalue => rw [hvalue] at h; cases h; rfl
  · next hexpr => rw [hexpr] at h; cases h

mutual

/-- **The code of a tree pushes its value**, or fails as the tree does. -/
theorem run_codeOnto (T : Bindings α) (active : List String) (t : Tree ι α) (rest : List (Instr α)) (stack : List α) :
    T.run (t.codeOnto rest) active stack =
      (t.value (T.resolve · active) >>= fun v => T.run rest active (v :: stack)) := by
  match t with
  | .literal _ v => exact run_step T (by simp) rest active stack
  | .var _ name => exact run_load T name rest active stack
  | .infinity _ => exact run_step T (by simp) rest active stack
  | .negate _ t =>
    rw [Tree.codeOnto, run_codeOnto T active t, Tree.value, bind_assoc]
    exact bind_congr fun v => run_step T (by simp) rest active _
  | .binary _ op a b =>
    rw [Tree.codeOnto, run_codeOnto T active a, Tree.value, bind_assoc]
    refine bind_congr fun v => ?_
    rw [run_codeOnto T active b, bind_assoc]
    exact bind_congr fun w => run_step T (by simp) rest active _
  | .list _ items =>
    rw [Tree.codeOnto, run_codeAllOnto T active items, Tree.value]
    cases hvs : Tree.valueAll (T.resolve · active) items with
    | error e => rfl
    | ok vs =>
      show T.run (.list items.length :: rest) active (vs.reverse ++ stack) = _
      rw [run_step T (by simp), ← Tree.length_valueAll hvs]
      match vs with
      | [] => rfl
      | [v] => rfl
      | v :: w :: vs => rfl

/-- The code of several trees pushes their values, the first at the bottom. -/
theorem run_codeAllOnto (T : Bindings α) (active : List String) (ts : List (Tree ι α)) (rest : List (Instr α))
    (stack : List α) :
    T.run (Tree.codeAllOnto ts rest) active stack =
      (Tree.valueAll (T.resolve · active) ts >>= fun vs => T.run rest active (vs.reverse ++ stack)) := by
  match ts with
  | [] => rfl
  | t :: ts =>
    rw [Tree.codeAllOnto, run_codeOnto T active t, Tree.valueAll, bind_assoc]
    refine bind_congr fun v => ?_
    rw [run_codeAllOnto T active ts, bind_assoc]
    refine bind_congr fun vs => ?_
    rw [pure_bind, List.reverse_cons, List.append_assoc, List.singleton_append]

end

end Bindings

namespace Expr

variable {α : Type} [Scalar α]

/-- **An expression evaluates to the value of its tree.** -/
theorem evaluate_eq (e : Expr α) (T : Bindings α) : e.evaluate T = e.tree.value T.valueOf := by
  unfold evaluate Tree.code
  rw [Bindings.run_codeOnto]
  show _ = e.tree.value (T.resolve · [])
  cases e.tree.value (T.resolve · []) with
  | error err => rfl
  | ok v =>
    have hrun : ((.ok v : Except ExprError α) >>= fun v => T.run [] [] [v]) = .ok [v] := by
      show T.run [] [] [v] = _
      rw [Bindings.run]
    rw [hrun]
    rfl

end Expr

/-! ## Placing nodes -/

namespace Tree

variable {ι α : Type} [Scalar α]

mutual

/-- **Placing a tree keeps its value.** -/
theorem value_place (load : String → Except ExprError α) (t : Tree ι α) (s : Slots) :
    (t.place s).1.value load = t.value load := by
  match t with
  | .literal _ _ | .var _ _ | .infinity _ => rfl
  | .negate _ t =>
    show ((t.place s).1.value load >>= _) = (t.value load >>= _)
    rw [value_place load t s]
  | .binary _ op a b =>
    show ((a.place s).1.value load >>= fun v => (b.place (a.place s).2).1.value load >>= _) = _
    rw [value_place load a s, value_place load b]
    rfl
  | .list _ items =>
    show (valueAll load (placeAll items s).1 >>= _) = (valueAll load items >>= _)
    rw [valueAll_placeAll load items s]

theorem valueAll_placeAll (load : String → Except ExprError α) (ts : List (Tree ι α)) (s : Slots) :
    valueAll load (placeAll ts s).1 = valueAll load ts := by
  match ts with
  | [] => rfl
  | t :: ts =>
    show ((t.place s).1.value load >>= fun v => valueAll load (placeAll ts (t.place s).2).1 >>= _) = _
    rw [value_place load t s, valueAll_placeAll load ts]
    rfl

end

end Tree

namespace Expr

variable {α : Type} [Scalar α]

@[simp] theorem evaluate_literal (v : α) (T : Bindings α) : (literal v).evaluate T = .ok v := by
  rw [evaluate_eq]
  rfl

/-- **Two expressions joined by an operator** evaluate to the operator on their values. -/
theorem evaluate_binary (op : BinaryOp) (e f : Expr α) (T : Bindings α) :
    (binary op e f).evaluate T = (do return op.apply (← e.evaluate T) (← f.evaluate T)) := by
  simp only [evaluate_eq]
  show (e.tree.value _ >>= fun v => (f.tree.place e.slots).1.value _ >>= _) = _
  rw [Tree.value_place]

end Expr

end SignalFlow
