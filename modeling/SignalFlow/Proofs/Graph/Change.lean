import SignalFlow.Graph.Builder
import SignalFlow.Proofs.Graph.Destroy
import SignalFlow.Proofs.Graph.Extend

/-!
# Graphs that changes lead to

`Graph.after` performs any list of changes, with any handles, on a graph. A change of a well-formed graph is refused
only when a handle in it names nothing, which is found out before anything is written; so a refused change leaves
the graph as it is. `Reachable` graphs are those that changes of the empty graph lead to: they are well-formed
(`Reachable.wellFormed`), and whatever a builder builds is one of them (`Builder.reachable_of_build`).
-/

namespace SignalFlow

namespace Graph

/-- **A change of a graph** that a caller may ask for. -/
inductive Change (α : Type) where
  | createNode (name : String)
  | destroyNode (v : NodeId)
  | connect (source dest : NodeId) (weight : Option (Expr α))
  | destroyBranch (i : BranchId)
  | setWeight (i : BranchId) (weight : Expr α)
  | rename (v : NodeId) (name : String)

variable {α : Type} [Scalar α]

/-- The graph after a change, or why the change is refused. -/
def perform (g : Graph α) : Change α → Except GraphError (Graph α)
  | .createNode name => .ok (g.createNode name).2
  | .destroyNode v => (g.destroyNode v).map Prod.snd
  | .connect source dest weight => (g.connect source dest weight).map Prod.snd
  | .destroyBranch i => (g.destroyBranch i).map Prod.snd
  | .setWeight i weight => (g.setWeight i weight).map Prod.snd
  | .rename v name => g.rename v name

/-- **The graph after changes**, from the first to the last; those that are refused change nothing. -/
def after (g : Graph α) : List (Change α) → Graph α
  | [] => g
  | c :: rest => ((g.perform c).toOption.getD g).after rest

theorem after_append (g : Graph α) (cs ds : List (Change α)) : g.after (cs ++ ds) = (g.after cs).after ds := by
  induction cs generalizing g with
  | nil => rfl
  | cons c rest ih => exact ih _

theorem after_of_perform {g g' : Graph α} {c : Change α} (h : g.perform c = .ok g') : g.after [c] = g' := by
  rw [after, h]
  rfl

omit [Scalar α] in
/-- What is not refused has found its node. -/
theorem exists_node?_of_bind {β : Type} {g : Graph α} {v : NodeId} {f : Node → Except GraphError β} {x : β}
    (h : (g.node v >>= f) = .ok x) : ∃ n, g.node? v = some n := by
  unfold node at h
  cases hn : g.node? v with
  | none => rw [hn] at h; cases h
  | some n => exact ⟨n, rfl⟩

omit [Scalar α] in
/-- What is not refused has found its branch. -/
theorem exists_branch?_of_bind {β : Type} {g : Graph α} {i : BranchId} {f : Branch α → Except GraphError β} {x : β}
    (h : (g.branch i >>= f) = .ok x) : ∃ b, g.branch? i = some b := by
  unfold branch at h
  cases hb : g.branch? i with
  | none => rw [hb] at h; cases h
  | some b => exact ⟨b, rfl⟩

omit [Scalar α] in
theorem exists_of_map_snd {β : Type} {r : Except GraphError (β × Graph α)} {g : Graph α}
    (h : r.map Prod.snd = .ok g) : ∃ x, r = .ok (x, g) := by
  cases r with
  | error e => cases h
  | ok p => exact ⟨p.1, by cases h; rfl⟩

/-- A change that is not refused keeps a graph well-formed. -/
theorem WellFormed.perform {g g' : Graph α} (hg : g.WellFormed) {c : Change α} (h : g.perform c = .ok g') :
    g'.WellFormed := by
  cases c with
  | createNode name =>
    cases h
    exact hg.createNode name
  | destroyNode v =>
    obtain ⟨x, hx⟩ := exists_of_map_snd h
    obtain ⟨n, hn⟩ := exists_node?_of_bind hx
    obtain ⟨g₁, hok, hbranch, hnode⟩ := hg.destroyNode_ok hn
    cases hx.symm.trans hok
    exact hg.of_destroyed hn hbranch hnode
  | connect source dest weight =>
    obtain ⟨x, hx⟩ := exists_of_map_snd h
    obtain ⟨s, hs⟩ := exists_node?_of_bind hx
    have hrest := hx
    rw [connect, node_eq_ok_iff.mpr hs] at hrest
    obtain ⟨d, hd⟩ := exists_node?_of_bind (f := fun _ => _) hrest
    obtain ⟨g₁, b, rfl, hok, hbranch, hnode⟩ := hg.connect_ok hs hd weight
    cases hx.symm.trans hok
    exact hg.of_attach rfl ⟨s, hs⟩ ⟨d, hd⟩ hbranch hnode
  | destroyBranch i =>
    obtain ⟨x, hx⟩ := exists_of_map_snd h
    obtain ⟨b, hb⟩ := exists_branch?_of_bind hx
    obtain ⟨g₁, hok, hdetached⟩ := hg.destroyBranch_ok hb
    cases hx.symm.trans hok
    exact hg.of_detached hdetached
  | setWeight i weight =>
    obtain ⟨x, hx⟩ := exists_of_map_snd h
    obtain ⟨b, hb⟩ := exists_branch?_of_bind hx
    obtain ⟨g₁, hok, hnode, hbranch⟩ := setWeight_ok hb weight
    cases hx.symm.trans hok
    exact hg.of_setWeight hb hnode hbranch
  | rename v name =>
    obtain ⟨n, hn⟩ := exists_node?_of_bind h
    obtain ⟨g₁, hok, hbranch, hnode⟩ := hg.rename_ok hn name
    cases h.symm.trans hok
    exact hg.of_rename hn hbranch hnode

/-- **Every graph that changes lead to is well-formed.** -/
theorem WellFormed.after {g : Graph α} (hg : g.WellFormed) (cs : List (Change α)) : (g.after cs).WellFormed := by
  induction cs generalizing g with
  | nil => exact hg
  | cons c rest ih =>
    refine ih ?_
    cases h : g.perform c with
    | error e => exact hg
    | ok g' => exact hg.perform h

/-- **A graph that changes of the empty graph lead to.** -/
def Reachable (g : Graph α) : Prop := ∃ cs : List (Change α), g = after {} cs

theorem Reachable.wellFormed {g : Graph α} (hg : g.Reachable) : g.WellFormed := by
  obtain ⟨cs, rfl⟩ := hg
  exact WellFormed.empty.after cs

/-- Two nodes, the first with two branches to the second, which has one back. -/
def feedback (α : Type) [Scalar α] : Graph α :=
  after {} [.createNode "in", .createNode "out", .connect ⟨0⟩ ⟨1⟩ none, .connect ⟨0⟩ ⟨1⟩ none, .connect ⟨1⟩ ⟨0⟩ none]

theorem feedback_reachable (α : Type) [Scalar α] : (feedback α).Reachable := ⟨_, rfl⟩

theorem feedback_eq (α : Type) [Scalar α] : feedback α =
    { nodes := #[some ⟨⟨0⟩, "in", [⟨0⟩, ⟨1⟩], [⟨2⟩]⟩, some ⟨⟨1⟩, "out", [⟨2⟩], [⟨0⟩, ⟨1⟩]⟩]
      branches := #[some ⟨⟨0⟩, ⟨0⟩, ⟨1⟩, Expr.literal Scalar.one⟩, some ⟨⟨1⟩, ⟨0⟩, ⟨1⟩, Expr.literal Scalar.one⟩,
        some ⟨⟨2⟩, ⟨1⟩, ⟨0⟩, Expr.literal Scalar.one⟩]
      nodeCount := 2
      branchCount := 3 } := by
  simp [feedback, after, Graph.perform, createNode, connect, node, node?, setNode, Except.map, Except.toOption, bind,
    Except.bind, pure, Except.pure]

theorem liveIds_feedback (α : Type) [Scalar α] : (feedback α).liveIds = [⟨0⟩, ⟨1⟩] := by
  rw [feedback_eq]
  rfl

theorem liveBranches_feedback (α : Type) [Scalar α] : (feedback α).liveBranches =
    [⟨⟨0⟩, ⟨0⟩, ⟨1⟩, Expr.literal Scalar.one⟩, ⟨⟨1⟩, ⟨0⟩, ⟨1⟩, Expr.literal Scalar.one⟩,
      ⟨⟨2⟩, ⟨1⟩, ⟨0⟩, Expr.literal Scalar.one⟩] := by
  rw [feedback_eq]
  rfl

/-- A branch from the first to the second of three nodes, and a loop at the third. -/
def aside (α : Type) [Scalar α] : Graph α :=
  after {} [.createNode "in", .createNode "out", .createNode "aside", .connect ⟨0⟩ ⟨1⟩ (some (Expr.var "a")),
    .connect ⟨2⟩ ⟨2⟩ (some (Expr.var "b"))]

theorem aside_reachable (α : Type) [Scalar α] : (aside α).Reachable := ⟨_, rfl⟩

theorem aside_eq (α : Type) [Scalar α] : aside α =
    { nodes := #[some ⟨⟨0⟩, "in", [⟨0⟩], []⟩, some ⟨⟨1⟩, "out", [], [⟨0⟩]⟩, some ⟨⟨2⟩, "aside", [⟨1⟩], [⟨1⟩]⟩]
      branches := #[some ⟨⟨0⟩, ⟨0⟩, ⟨1⟩, Expr.var "a"⟩, some ⟨⟨1⟩, ⟨2⟩, ⟨2⟩, Expr.var "b"⟩]
      nodeCount := 3
      branchCount := 2 } := by
  simp [aside, after, Graph.perform, createNode, connect, node, node?, setNode, Except.map, Except.toOption, bind,
    Except.bind, pure, Except.pure]

theorem liveIds_aside (α : Type) [Scalar α] : (aside α).liveIds = [⟨0⟩, ⟨1⟩, ⟨2⟩] := by
  rw [aside_eq]
  rfl

theorem liveBranches_aside (α : Type) [Scalar α] :
    (aside α).liveBranches = [⟨⟨0⟩, ⟨0⟩, ⟨1⟩, Expr.var "a"⟩, ⟨⟨1⟩, ⟨2⟩, ⟨2⟩, Expr.var "b"⟩] := by
  rw [aside_eq]
  rfl

end Graph

/-! ## Graphs of a builder -/

namespace Builder

open SignalFlow.Graph (Change after)

variable {α : Type} [Scalar α]

theorem exists_after_of_place {b : Builder} {g g' : Graph α} {p : Plan} (h : b.place g p = .ok g') :
    ∃ cs : List (Change α), g' = g.after cs := by
  unfold place at h
  cases hs : lookup b p.source with
  | error e => rw [hs] at h; cases h
  | ok s =>
    cases hd : lookup b p.dest with
    | error e => rw [hs, hd] at h; cases h
    | ok d =>
      cases hw : readWeight (α := α) p.weight with
      | error e => rw [hs, hd, hw] at h; cases h
      | ok w =>
        rw [hs, hd, hw] at h
        refine ⟨[.connect s d w], (Graph.after_of_perform ?_).symm⟩
        change (g.connect s d w >>= fun x => pure x.2) = .ok g' at h
        show (g.connect s d w).map Prod.snd = .ok g'
        cases hc : g.connect s d w with
        | error e => rw [hc] at h; cases h
        | ok x => rw [hc] at h; exact h

theorem exists_after_of_placeAll {b : Builder} {g g' : Graph α} {ps : List Plan} (h : b.placeAll g ps = .ok g') :
    ∃ cs : List (Change α), g' = g.after cs := by
  induction ps generalizing g with
  | nil => cases h; exact ⟨[], rfl⟩
  | cons p rest ih =>
    unfold placeAll at h
    cases hp : b.place g p with
    | error e => rw [hp] at h; cases h
    | ok g₁ =>
      rw [hp] at h
      obtain ⟨cs, rfl⟩ := exists_after_of_place hp
      obtain ⟨ds, rfl⟩ := ih h
      exact ⟨cs ++ ds, (Graph.after_append _ _ _).symm⟩

theorem foldl_createNode_eq_after (g : Graph α) (names : List String) :
    names.foldl (fun g name => (g.createNode name).2) g = g.after (names.map .createNode) := by
  induction names generalizing g with
  | nil => rfl
  | cons name rest ih => exact ih _

/-- **What a builder builds** is reached by changes of the empty graph. -/
theorem reachable_of_build {b : Builder} {g : Graph α} (h : b.build = .ok g) : g.Reachable := by
  unfold build at h
  cases hr : repeated? [] b.names with
  | some name => rw [hr] at h; cases h
  | none =>
    rw [hr, foldl_createNode_eq_after] at h
    change (b.placeAll _ b.plans >>= fun g => g.check >>= fun _ => pure g) = .ok g at h
    cases hp : b.placeAll (after {} (b.names.map Change.createNode) : Graph α) b.plans with
    | error e => rw [hp] at h; cases h
    | ok g₁ =>
      rw [hp] at h
      obtain ⟨cs, rfl⟩ := exists_after_of_placeAll hp
      refine ⟨b.names.map .createNode ++ cs, ?_⟩
      rw [Graph.after_append]
      change (Graph.check _ >>= fun _ => pure _) = .ok g at h
      cases hc : (after (after {} (b.names.map Change.createNode)) cs : Graph α).check with
      | error e => rw [hc] at h; cases h
      | ok u => rw [hc] at h; cases h; rfl

end Builder

end SignalFlow
