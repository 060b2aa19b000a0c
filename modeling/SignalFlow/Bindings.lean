import SignalFlow.Double
import SignalFlow.Postfix
import SignalFlow.Expr.Basic
import SignalFlow.Remaining

/-!
# Bindings and evaluation

A table binds names to numbers or to expressions. A bound expression is evaluated when its name is met, with the same
table; a name that is met again while its own expression is being evaluated is an error, as is a name without a
binding. Since a name under evaluation is never entered twice, every evaluation ends.
-/

namespace SignalFlow

/-- **What a name is bound to.** -/
inductive Binding (α : Type) where
  | value (v : α)
  | expr (e : Expr α)

/-- **A table of bindings**, at most one for every name. -/
structure Bindings (α : Type) where
  entries : List (String × Binding α) := []

namespace Bindings

variable {α : Type}

/-- The binding of a name. -/
def get? (T : Bindings α) (name : String) : Option (Binding α) := T.entries.lookup name

/-- Whether a name is bound. -/
def contains (T : Bindings α) (name : String) : Bool := (T.get? name).isSome

/-- The number of bound names. -/
def size (T : Bindings α) : Nat := T.entries.length

/-- The table without a name. -/
def erase (T : Bindings α) (name : String) : Bindings α := ⟨T.entries.filter (·.1 ≠ name)⟩

/-- Binds a name, in place of what it was bound to. -/
def insert (T : Bindings α) (name : String) (b : Binding α) : Bindings α := ⟨(T.erase name).entries ++ [(name, b)]⟩

/-- Binds a name that is bound already. -/
def set (T : Bindings α) (name : String) (b : Binding α) : Except ExprError (Bindings α) :=
  if T.contains name then .ok (T.insert name b) else .error (.undefinedVariable name)

/-! ## Evaluation -/

/-- The bound names. -/
def names (T : Bindings α) : List String := T.entries.map (·.1)

/-- A name with a binding is bound. -/
theorem mem_names_of_get? {T : Bindings α} {name : String} {b : Binding α} (h : T.get? name = some b) :
    name ∈ T.names := by
  obtain ⟨entries⟩ := T
  simp only [get?, names] at h ⊢
  induction entries with
  | nil => cases h
  | cons p rest ih =>
    obtain ⟨k, c⟩ := p
    rw [List.lookup_cons] at h
    by_cases hk : name == k
    · rw [beq_iff_eq.mp hk]
      exact List.mem_cons_self
    · simp only [hk] at h
      exact List.mem_cons_of_mem _ (ih h)

variable [Scalar α]

mutual

/-- The value of a name while the names in `active` are being evaluated. -/
def resolve (T : Bindings α) (name : String) (active : List String) : Except ExprError α :=
  match h : T.get? name with
  | none => .error (.undefinedVariable name)
  | some (.value v) => .ok v
  | some (.expr e) =>
    if hn : name ∈ active then .error (.cyclicBinding name)
    else
      have := remaining_cons_lt (mem_names_of_get? h) hn
      match run T e.tree.code (name :: active) [] with
      | .ok stack => Instr.top stack
      | .error err => .error err
termination_by (remaining T.names active, 0)

/-- Runs postfix code on a stack while the names in `active` are being evaluated. -/
def run (T : Bindings α) (code : List (Instr α)) (active : List String) (stack : List α) :
    Except ExprError (List α) :=
  match code with
  | [] => .ok stack
  | .load name :: rest =>
    match resolve T name active with
    | .ok v => run T rest active (v :: stack)
    | .error err => .error err
  | i :: rest =>
    match i.step stack with
    | .ok stack => run T rest active stack
    | .error err => .error err
termination_by (remaining T.names active, code.length + 1)

end

/-- **The value of a name.** -/
def valueOf (T : Bindings α) (name : String) : Except ExprError α := T.resolve name []

end Bindings

/-- **The value of an expression** with a table of bindings. -/
def Expr.evaluate {α : Type} [Scalar α] (e : Expr α) (T : Bindings α) : Except ExprError α :=
  match T.run e.tree.code [] [] with
  | .ok stack => Instr.top stack
  | .error err => .error err

/-- The number `e`. -/
def eulerNumber : Double := .ofFloat 2.718281828459045 false

/-- The number `π`. -/
def circleNumber : Double := .ofFloat 3.141592653589793 false

/-- **The table that binds `e` and `pi`.** -/
def Bindings.builtin : Bindings Double := ⟨[("e", .value eulerNumber), ("pi", .value circleNumber)]⟩

end SignalFlow
