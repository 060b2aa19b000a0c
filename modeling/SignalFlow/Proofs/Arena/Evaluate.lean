import SignalFlow.Proofs.Arena.Faithful
import SignalFlow.Proofs.Expr.Recursive

/-!
# Evaluation in an arena

An arena is evaluated by a walk through the nodes below the root, operands before the nodes that have them, on a stack
of values: each node takes the values of its operands off the stack and puts its own on it. Names are looked up in a
table of numbers and arenas; an arena that is bound to a name is evaluated in the same way. Nothing in the data promises
that a node finds its operands on the stack.

On orderly arenas it does: the walk over a tree puts the value of the tree on the stack, or ends with the error of the
first node that fails (`evalNodes_tree`). So evaluation is recursion over the tree (`Arena.Orderly.evaluate_recursive`).
-/

namespace SignalFlow

variable {α β : Type}

theorem mem_of_lookup {entries : List (String × β)} {name : String} {b : β} (h : entries.lookup name = some b) :
    (name, b) ∈ entries := by
  obtain ⟨before, after, rfl, -⟩ := List.lookup_eq_some_iff.mp h
  exact List.mem_append_right before List.mem_cons_self

namespace Arena

/-! ## The evaluator -/

/-- **The outcome of an evaluation**, unless it breaks down. -/
abbrev Calc (β : Type) := ExceptT ExprError (Except Panic) β

namespace Calc

/-- An outcome. -/
def answer (x : Except ExprError β) : Calc β := ExceptT.mk (.ok x)

/-- Looks something up. -/
def look (x : Except Panic β) : Calc β := ExceptT.mk (x.map .ok)

end Calc

open Calc

/-- Takes a value off the stack. -/
def pop : List α → Calc (α × List α)
  | v :: values => pure (v, values)
  | [] => throw (.invalidNode .missingOperand)

section Evaluator

variable [Scalar α] (load : String → Calc α)

/-- **Evaluates one node** on the stack. -/
def evalNode : Node α → List α → Calc (List α)
  | .literal v, values => pure (v :: values)
  | .var name, values => do
    let v ← load name
    return v :: values
  | .infinity, values => pure (Scalar.undefined :: values)
  | .negate _, values => do
    let (v, values) ← pop values
    return Scalar.neg v :: values
  | .binary op _ _, values => do
    let (w, values) ← pop values
    let (v, values) ← pop values
    return op.apply v w :: values
  | .list items, values =>
    if items.length = 1 then do
      let (v, values) ← pop values
      return v :: values
    else throw .notEvaluable

/-- Evaluates nodes one after the other. -/
def evalNodes (a : Arena α) : List Id → List α → Calc (List α)
  | [], values => pure values
  | i :: rest, values => do
    let n ← look (match a.node? i with
      | some n => .ok n
      | none => .error (.stale i))
    let values ← evalNode load n values
    evalNodes a rest values

/-- **Evaluates a node and what is below it.** -/
def evalFrom (a : Arena α) (i : Id) : Calc α := do
  let order ← look (a.postorderFrom i)
  let values ← evalNodes load a order []
  let (v, _) ← pop values
  return v

end Evaluator

/-- **What a name is bound to.** -/
inductive Bound (α : Type) where
  | value (v : α)
  | arena (a : Arena α)

/-- **A table of numbers and arenas.** -/
structure Table (α : Type) where
  entries : List (String × Bound α)

namespace Table

/-- What a name is bound to. -/
def get? (T : Table α) (name : String) : Option (Bound α) := T.entries.lookup name

/-- The bound names. -/
def names (T : Table α) : List String := T.entries.map (·.1)

theorem mem_names_of_get? {T : Table α} {name : String} {b : Bound α} (h : T.get? name = some b) :
    name ∈ T.names :=
  List.mem_map_of_mem (mem_of_lookup h)

/-- **The value of a name** while the names in `active` are being evaluated. -/
def resolve [Scalar α] (T : Table α) (active : List String) (name : String) : Calc α :=
  match h : T.get? name with
  | none => throw (.undefinedVariable name)
  | some (.value v) => pure v
  | some (.arena a) =>
    if hn : name ∈ active then throw (.cyclicBinding name)
    else
      have := remaining_cons_lt (mem_names_of_get? h) hn
      a.evalFrom (fun x => resolve T (name :: active) x) a.root
termination_by remaining T.names active

theorem resolve_eq [Scalar α] (T : Table α) (active : List String) (name : String) : T.resolve active name =
    match T.get? name with
    | none => throw (.undefinedVariable name)
    | some (.value v) => pure v
    | some (.arena a) =>
      if name ∈ active then throw (.cyclicBinding name) else a.evalFrom (T.resolve (name :: active)) a.root := by
  rw [resolve]
  split
  case h_1 h => simp only [h]
  case h_2 v h => simp only [h]
  case h_3 a h => simp only [h, dite_eq_ite]

end Table

/-- **The value of an arena** with a table. -/
def evaluate [Scalar α] (a : Arena α) (T : Table α) : Calc α := evalFrom (T.resolve []) a a.root

/-! ## Walks over trees -/

section Walks

variable [Scalar α] {a : Arena α} {l : Layout α} {load : String → Except ExprError α}

theorem answer_bind {γ : Type} (x : Except ExprError β) (f : β → Except ExprError γ) :
    answer (x >>= f) = (answer x >>= fun b => answer (f b)) := by
  cases x <;> rfl

/-- **A node takes the values of its operands off the stack**, and puts the value of its tree on it. -/
theorem evalNode_shape (t : Tree Id α) (values : List α) :
    (answer (Tree.valueAll load t.children) >>= fun vs =>
      evalNode (fun x => answer (load x)) t.shape (vs.reverse ++ values)) =
      answer (t.value load) >>= fun v => pure (v :: values) := by
  cases t with
  | literal | var | infinity => rfl
  | negate _ t =>
    rw [Tree.children, Tree.valueAll, Tree.value]
    cases t.value load <;> rfl
  | binary _ op a b =>
    rw [Tree.children, Tree.valueAll, Tree.valueAll, Tree.value]
    cases a.value load with
    | error e => rfl
    | ok v => cases b.value load <;> rfl
  | list _ items =>
    rw [Tree.children, Tree.value]
    cases hvs : Tree.valueAll load items with
    | error e => rfl
    | ok vs =>
      have hlength : (items.map Tree.label).length = vs.length := by
        rw [List.length_map, Tree.length_valueAll hvs]
      show evalNode (fun x => answer (load x)) (.list (items.map Tree.label)) (vs.reverse ++ values) = _
      rw [evalNode, hlength]
      rcases vs with _ | ⟨v, _ | ⟨w, vs⟩⟩ <;> rfl

/-- The nodes of several trees put their values on the stack, the last one on top. -/
theorem evalNodes_trees {ts : List (Tree Id α)} {rest : List Id}
    (h : ∀ t ∈ ts, ∀ rest values, evalNodes (fun x => answer (load x)) a (t.postorder.map Tree.label ++ rest) values =
      answer (t.value load) >>= fun v => evalNodes (fun x => answer (load x)) a rest (v :: values)) (values : List α) :
    evalNodes (fun x => answer (load x)) a ((ts.flatMap Tree.postorder).map Tree.label ++ rest) values =
      answer (Tree.valueAll load ts) >>= fun vs =>
        evalNodes (fun x => answer (load x)) a rest (vs.reverse ++ values) := by
  induction ts generalizing values with
  | nil => rfl
  | cons t ts ih =>
    rw [List.flatMap_cons, List.map_append, List.append_assoc, h t List.mem_cons_self, Tree.valueAll, answer_bind,
      bind_assoc]
    refine bind_congr fun v => ?_
    rw [ih fun u hu => h u (List.mem_cons_of_mem _ hu), answer_bind, bind_assoc]
    refine bind_congr fun vs => ?_
    rw [List.append_cons, ← List.reverse_cons]
    rfl

/-- **The nodes of a tree that sits there put its value on the stack**, or end with its error. -/
theorem evalNodes_tree (h : Shows a l) (t : Tree Id α) (ht : l.Sits t) (rest : List Id) (values : List α) :
    evalNodes (fun x => answer (load x)) a (t.postorder.map Tree.label ++ rest) values =
      answer (t.value load) >>= fun v => evalNodes (fun x => answer (load x)) a rest (v :: values) := by
  induction t using Tree.childInduction generalizing rest values with
  | h t ih =>
    rw [Tree.postorder_eq, List.map_append, List.map_singleton, List.append_assoc,
      evalNodes_trees fun c hc => ih c hc (ht.child hc)]
    have hnode : ∀ vs, evalNodes (fun x => answer (load x)) a ([t.label] ++ rest) vs =
        evalNode (fun x => answer (load x)) t.shape vs >>= evalNodes (fun x => answer (load x)) a rest := by
      intro vs
      rw [List.singleton_append, evalNodes, h.node_tree ht]
      rfl
    simp only [hnode]
    rw [← bind_assoc, evalNode_shape, bind_assoc]
    exact bind_congr fun v => pure_bind _ _

/-- **Evaluating a tree that sits there.** -/
theorem evalFrom_eq (h : Shows a l) {t : Tree Id α} (ht : l.Sits t) :
    evalFrom (fun x => answer (load x)) a t.label = answer (t.value load) := by
  have hwalk : evalNodes (fun x => answer (load x)) a (t.postorder.map Tree.label ++ []) [] =
      answer (t.value load) >>= fun v => evalNodes (fun x => answer (load x)) a [] [v] := evalNodes_tree h t ht [] []
  rw [List.append_nil] at hwalk
  rw [evalFrom, postorderFrom_eq h ht]
  show evalNodes _ a (t.postorder.map Tree.label) [] >>= _ = _
  rw [hwalk]
  cases t.value load <;> rfl

end Walks

end Arena

/-! ## Tables -/

/-- What a name is bound to, with an expression in its arena. -/
def Binding.arena : Binding α → Arena.Bound α
  | .value v => .value v
  | .expr e => .arena e.arena

namespace Bindings

open Arena (Bound Table)
open Arena.Calc (answer)

/-- **The table with all expressions in arenas.** -/
def arenas (B : Bindings α) : Table α := ⟨B.entries.map fun p => (p.1, p.2.arena)⟩

/-- All expressions that names are bound to are whole. -/
def Whole (B : Bindings α) : Prop := ∀ name e, (name, .expr e) ∈ B.entries → e.Whole

theorem get?_arenas (B : Bindings α) (name : String) : B.arenas.get? name = (B.get? name).map Binding.arena := by
  obtain ⟨entries⟩ := B
  show (entries.map _).lookup name = (entries.lookup name).map Binding.arena
  induction entries with
  | nil => rfl
  | cons p entries ih =>
    obtain ⟨other, b⟩ := p
    rw [List.map_cons, List.lookup_cons, List.lookup_cons, ih]
    cases name == other <;> rfl

theorem Whole.of_get? {B : Bindings α} (hB : B.Whole) {name : String} {e : Expr α} (h : B.get? name = some (.expr e)) :
    e.Whole :=
  hB name e (mem_of_lookup h)

/-- **Names have the same values in arenas.** -/
theorem resolve_arenas [Scalar α] {B : Bindings α} (hB : B.Whole) (active : List String) :
    B.arenas.resolve active = fun x => answer (B.valueWithin active x) := by
  induction active using activeInduction B with
  | h active ih =>
    funext x
    rw [Table.resolve_eq, get?_arenas, valueWithin_eq]
    cases hget : B.get? x with
    | none => rfl
    | some b =>
      cases b with
      | value v => rfl
      | expr e =>
        have he := hB.of_get? hget
        by_cases hx : x ∈ active
        case pos =>
          show (if x ∈ active then _ else _) = answer (if x ∈ active then _ else _)
          rw [if_pos hx, if_pos hx]
          rfl
        show (if x ∈ active then _ else Arena.evalFrom (B.arenas.resolve (x :: active)) e.arena e.arena.root) =
          answer (if x ∈ active then _ else _)
        rw [if_neg hx, if_neg hx, ih x e hget hx]
        exact Arena.evalFrom_eq (Expr.shows_arena he) (Expr.sits_of_node? he (Expr.node?_root he))

/-- A table of orderly arenas is that of a table of whole expressions. -/
theorem exists_arenas {T : Table α} (hT : ∀ name a, (name, .arena a) ∈ T.entries → a.Orderly) :
    ∃ B : Bindings α, B.Whole ∧ B.arenas = T := by
  have hentry : ∀ p ∈ T.entries, ∃ q : String × Binding α, (∀ e, q.2 = .expr e → e.Whole) ∧ (q.1, q.2.arena) = p := by
    rintro ⟨name, b⟩ hp
    cases b with
    | value v => exact ⟨(name, .value v), nofun, rfl⟩
    | arena a =>
      obtain ⟨e, he, rfl⟩ := (hT name a hp).exists_whole
      refine ⟨(name, .expr e), fun f hf => ?_, rfl⟩
      cases hf
      exact he
  obtain ⟨entries, hentries, hmap⟩ := Edit.exists_list_map hentry
  exact ⟨⟨entries⟩, fun name e hmem => hentries _ hmem e rfl, congrArg Table.mk hmap⟩

end Bindings

namespace Arena

variable [Scalar α]

/-- **Evaluation is recursion over the tree.** An orderly arena, with a table of orderly arenas, is the arena of an
expression with a table of expressions. Its evaluation does not break down, and answers what the expression evaluates
to: the value of the tree, or the error of the first node that fails, in postorder. No error is one of a node. -/
theorem Orderly.evaluate_recursive {a : Arena α} (ha : a.Orderly) {T : Table α}
    (hT : ∀ name b, (name, .arena b) ∈ T.entries → b.Orderly) :
    ∃ (e : Expr α) (B : Bindings α), (e.Whole ∧ e.arena = a) ∧ (B.Whole ∧ B.arenas = T) ∧
      a.evaluate T = Calc.answer (e.evaluate B) ∧
      e.evaluate B = e.tree.value (B.valueWithin []) ∧
      (∀ err, e.evaluate B = .error err ↔
        e.tree.postorder.findSome? (Tree.fault? (B.valueWithin [])) = some err) ∧
      ∀ f, e.evaluate B ≠ .error (.invalidNode f) := by
  obtain ⟨e, he, rfl⟩ := ha.exists_whole
  obtain ⟨B, hB, rfl⟩ := Bindings.exists_arenas hT
  have hvalue := e.evaluate_eq_valueWithin B
  refine ⟨e, B, ⟨he, rfl⟩, ⟨hB, rfl⟩, ?_, hvalue, fun err => ?_, e.evaluate_ne_invalidNode B⟩
  · rw [evaluate, Bindings.resolve_arenas hB, hvalue]
    exact evalFrom_eq (Expr.shows_arena he) (Expr.sits_of_node? he (Expr.node?_root he))
  · rw [hvalue, Tree.findSome?_fault?, errorOf?_eq_some]

/-- The opposite of `y`, where `y` is bound to itself. -/
theorem evaluate_recursive_cycle :
    let y : Arena Double := ⟨#[some ⟨.var "y", none⟩], [], ⟨0⟩⟩
    let a : Arena Double := ⟨#[some ⟨.var "y", some ⟨1⟩⟩, some ⟨.negate ⟨0⟩, none⟩], [], ⟨1⟩⟩
    let T : Table Double := ⟨[("y", .arena y)]⟩
    a.Orderly ∧ (∀ name b, (name, .arena b) ∈ T.entries → b.Orderly) ∧
    ∃ (e : Expr Double) (B : Bindings Double), (e.Whole ∧ e.arena = a) ∧ (B.Whole ∧ B.arenas = T) ∧
      a.evaluate T = Calc.answer (e.evaluate B) ∧
      e.evaluate B = e.tree.value (B.valueWithin []) ∧
      (∀ err, e.evaluate B = .error err ↔
        e.tree.postorder.findSome? (Tree.fault? (B.valueWithin [])) = some err) ∧
      ∀ f, e.evaluate B ≠ .error (.invalidNode f) := by
  intro y a T
  have hy : IsReached y := .start (.var rfl)
  have ha : a.Orderly := orderly_of_reached (.next (o := .negate) nofun hy ⟨_, _, rfl, .inl rfl⟩)
  have hT : ∀ name b, (name, .arena b) ∈ T.entries → b.Orderly := by
    intro name b hb
    cases List.mem_singleton.mp hb
    exact orderly_of_reached hy
  exact ⟨ha, hT, ha.evaluate_recursive hT⟩

end Arena

end SignalFlow
