import SignalFlow.Proofs.Graph.Multigraph

/-!
# What a builder builds

A builder is filled by calls (`Builder.Call`) that check nothing. What a handle stands for is the name at its index, so
a handle that a call has answered keeps standing for the name of the call until it is renamed (`answered_run`).

`Faultless names plans` says what names and plans must be like, `FirstFault names plans e` that `e` is their first
fault: a name that occurs before, else the first plan that fails. One of both holds (`faultless_or_firstFault`), and
which of them decides what is built (`build_faultless`, `build_firstFault`): a graph whose nodes are the names and whose
branches are the plans, each in its place (`Built`), or the fault. `build_exact` is this for any run of calls.
-/

namespace SignalFlow

open SignalFlow.Graph (Branch Node)

/-- All members of a list have a property, or there is a first one that has another property instead. -/
theorem all_or_first {β : Type} {P Q : β → Prop} (h : ∀ x, P x ∨ Q x) (xs : List β) : (∀ x ∈ xs, P x) ∨
    ∃ before x after, xs = before ++ x :: after ∧ (∀ y ∈ before, P y) ∧ Q x := by
  induction xs with
  | nil => exact .inl (List.forall_mem_nil _)
  | cons x rest ih =>
    rcases h x with hx | hx
    case inr => exact .inr ⟨[], x, rest, rfl, List.forall_mem_nil _, hx⟩
    rcases ih with hrest | ⟨before, y, after, rfl, hbefore, hy⟩
    · exact .inl (List.forall_mem_cons.mpr ⟨hx, hrest⟩)
    · exact .inr ⟨x :: before, y, after, rfl, List.forall_mem_cons.mpr ⟨hx, hbefore⟩, hy⟩

/-- An outcome of which it is known when it is a value and when it is which error. -/
theorem outcome_iff {ε β : Type} {x : Except ε β} {P : Prop} {Q : ε → Prop} (hP : P → ∃ b, x = .ok b)
    (hQ : ∀ e, Q e → x = .error e) (h : P ∨ ∃ e, Q e) : ((∃ b, x = .ok b) ↔ P) ∧ ∀ e, x = .error e ↔ Q e := by
  refine ⟨⟨fun ⟨b, hb⟩ => ?_, hP⟩, fun e => ⟨fun he => ?_, hQ e⟩⟩
  · refine h.resolve_right fun ⟨e, he⟩ => ?_
    cases hb.symm.trans (hQ e he)
  · rcases h with hp | ⟨e', he'⟩
    · obtain ⟨b, hb⟩ := hP hp
      cases hb.symm.trans he
    · cases he.symm.trans (hQ e' he')
      exact he'

namespace Builder

/-! ## Calls -/

/-- **A call of a builder**, before the graph is built. -/
inductive Call where
  | addNode (name : String)
  | ensureNode (name : String)
  | rename (node : NodeId) (name : String)
  | connect (source dest : String) (weight : Option String)

namespace Call

/-- The name of the node that a call asks for. -/
def node? : Call → Option String
  | addNode name | ensureNode name => some name
  | _ => none

/-- The plan that a call records. -/
def plan? : Call → Option Plan
  | connect source dest weight => some ⟨source, dest, weight⟩
  | _ => none

/-- What a call makes of the name of a node. -/
def renamed (v : NodeId) (name : String) : Call → String
  | rename w new => if w = v then new else name
  | _ => name

end Call

/-- A call: the handle that it answers, if it is one that asks for a node, and the builder after it. -/
def perform (b : Builder) : Call → Option NodeId × Builder
  | .addNode name => ((b.addNode name).1, (b.addNode name).2)
  | .ensureNode name => ((b.ensureNode name).1, (b.ensureNode name).2)
  | .rename v name => (none, b.rename v name)
  | .connect source dest weight => (none, b.connect source dest weight)

/-- **A run of calls**: all answers, and the builder at the end. -/
def run : List Call → Builder → List (Option NodeId) × Builder
  | [], b => ([], b)
  | c :: rest, b => ((b.perform c).1 :: (run rest (b.perform c).2).1, (run rest (b.perform c).2).2)

theorem lookup?_eq_some {b : Builder} {name : String} {v : NodeId} (h : b.lookup? name = some v) :
    b.names[v.index]? = some name := by
  obtain ⟨i, hi, rfl⟩ := Option.map_eq_some_iff.mp h
  obtain ⟨hlt, hname, -⟩ := List.idxOf?_eq_some_iff.mp hi
  exact List.getElem?_eq_some_iff.mpr ⟨hlt, hname⟩

theorem getElem?_addNode (b : Builder) (name : String) :
    (b.addNode name).2.names[(b.addNode name).1.index]? = some name :=
  List.getElem?_concat_length

/-- The node that a call asks for has its name. -/
theorem answered_perform {b : Builder} {c : Call} {v : NodeId} (h : (b.perform c).1 = some v) :
    ∃ name, c.node? = some name ∧ (b.perform c).2.names[v.index]? = some name := by
  cases c with
  | addNode name =>
    cases h
    exact ⟨name, rfl, b.getElem?_addNode name⟩
  | ensureNode name =>
    refine ⟨name, rfl, ?_⟩
    cases h
    show (b.ensureNode name).2.names[(b.ensureNode name).1.index]? = some name
    unfold ensureNode
    cases hname : b.lookup? name with
    | some v => exact lookup?_eq_some hname
    | none => exact b.getElem?_addNode name
  | rename w new => cases h
  | connect source dest weight => cases h

/-- A call keeps the names of the nodes but for the one that it renames. -/
theorem getElem?_perform {b : Builder} {v : NodeId} {name : String} (h : b.names[v.index]? = some name) (c : Call) :
    (b.perform c).2.names[v.index]? = some (c.renamed v name) := by
  have hlt : v.index < b.names.length := (List.getElem?_eq_some_iff.mp h).1
  have hadd (new : String) : (b.addNode new).2.names[v.index]? = some name := by
    rw [addNode, List.getElem?_append_left hlt, h]
  cases c with
  | addNode new => exact hadd new
  | ensureNode new =>
    show (b.ensureNode new).2.names[v.index]? = some name
    unfold ensureNode
    cases b.lookup? new with
    | some w => exact h
    | none => exact hadd new
  | rename w new =>
    show (b.names.set w.index new)[v.index]? = some (if w = v then new else name)
    rw [List.getElem?_set]
    by_cases hw : w = v
    · subst hw
      simp [hlt]
    · rw [if_neg fun hindex => hw (Id.index_inj.mp hindex), if_neg hw, h]
  | connect source dest weight => exact h

theorem getElem?_run {b : Builder} {v : NodeId} {name : String} (h : b.names[v.index]? = some name) (cs : List Call) :
    (run cs b).2.names[v.index]? = some (cs.foldl (Call.renamed v) name) := by
  induction cs generalizing b name with
  | nil => exact h
  | cons c rest ih => exact ih (getElem?_perform h c)

/-- **A handle that was answered** stands for the name of its call, or the one that it was given last. -/
theorem answered_run {cs : List Call} {b : Builder} {k : Nat} {v : NodeId} (h : (run cs b).1[k]? = some (some v)) :
    ∃ c name, cs[k]? = some c ∧ c.node? = some name ∧
      (run cs b).2.names[v.index]? = some ((cs.drop (k + 1)).foldl (Call.renamed v) name) := by
  induction cs generalizing b k with
  | nil => cases h
  | cons c rest ih =>
    cases k with
    | zero =>
      obtain ⟨name, hnode, hname⟩ := answered_perform (Option.some.inj h)
      exact ⟨c, name, rfl, hnode, getElem?_run hname rest⟩
    | succ k => exact ih h

/-- A run records the plans of its calls, in their order. -/
theorem plans_run (cs : List Call) (b : Builder) : (run cs b).2.plans = b.plans ++ cs.filterMap Call.plan? := by
  induction cs generalizing b with
  | nil => exact (List.append_nil _).symm
  | cons c rest ih =>
    have hstep : (b.perform c).2.plans = b.plans ++ c.plan?.toList := by
      cases c with
      | ensureNode name =>
        show (b.ensureNode name).2.plans = b.plans ++ []
        unfold ensureNode
        cases b.lookup? name <;> simp [addNode]
      | addNode name => simp [perform, addNode, Call.plan?]
      | rename v name => simp [perform, rename, Call.plan?]
      | connect source dest weight => simp [perform, connect, Call.plan?]
    rw [run, ih, hstep, List.append_assoc]
    cases c <;> rfl

/-! ## Repeated names -/

theorem repeated?_eq_none {seen names : List String} :
    repeated? seen names = none ↔ names.Nodup ∧ ∀ x ∈ names, x ∉ seen := by
  induction names generalizing seen with
  | nil => simp [repeated?]
  | cons x rest ih =>
    rw [repeated?]
    by_cases hx : x ∈ seen
    · simp [hx]
    · rw [if_neg hx, ih, List.nodup_cons]
      simp only [List.mem_cons, not_or, forall_eq_or_imp, hx, not_false_eq_true, true_and]
      grind

theorem repeated?_eq_some {seen names : List String} {name : String} :
    repeated? seen names = some name ↔ ∃ before after, names = before ++ name :: after ∧ before.Nodup ∧
      (∀ x ∈ before, x ∉ seen) ∧ (name ∈ seen ∨ name ∈ before) := by
  induction names generalizing seen with
  | nil => simp [repeated?]
  | cons x rest ih =>
    rw [repeated?]
    by_cases hx : x ∈ seen
    · rw [if_pos hx]
      constructor
      · rintro ⟨⟩
        exact ⟨[], rest, rfl, .nil, List.forall_mem_nil _, .inl hx⟩
      · rintro ⟨before, after, hnames, -, hbefore, -⟩
        cases before with
        | nil => exact congrArg some (List.cons.inj hnames).1
        | cons y before =>
          cases hnames
          exact absurd hx (hbefore x List.mem_cons_self)
    · rw [if_neg hx, ih]
      constructor
      · rintro ⟨before, after, rfl, hnodup, hbefore, hname⟩
        refine ⟨x :: before, after, rfl, ?_, ?_, ?_⟩ <;> grind
      · rintro ⟨before, after, hnames, hnodup, hbefore, hname⟩
        cases before with
        | nil =>
          cases hnames
          exact absurd (hname.resolve_right List.not_mem_nil) hx
        | cons y before =>
          cases hnames
          refine ⟨before, after, rfl, ?_, ?_, ?_⟩ <;> grind

/-! ## Faults -/

section Faults

variable (α : Type) [Scalar α]

/-- The weight of a plan, if it has one, is the text of an expression. -/
def Plan.Readable (p : Plan) : Prop := ∀ text, p.weight = some text → ∃ e : Expr α, Expr.ofText text = .ok e

/-- **A plan that can be placed** among names: it joins two of them, and its weight is an expression. -/
structure Plan.Sound (names : List String) (p : Plan) : Prop where
  source : p.source ∈ names
  dest : p.dest ∈ names
  weight : p.Readable α

/-- **How a plan fails** among names: the source counts before the destination, and both before the weight. -/
inductive Plan.Fails (names : List String) (p : Plan) : GraphError → Prop
  | source (h : p.source ∉ names) : Fails names p (.unknownName p.source)
  | dest (hs : p.source ∈ names) (h : p.dest ∉ names) : Fails names p (.unknownName p.dest)
  | weight {text e} (hs : p.source ∈ names) (hd : p.dest ∈ names) (htext : p.weight = some text)
      (h : (Expr.ofText text : Except ExprError (Expr α)) = .error e) : Fails names p (.weight text e)

/-- **Names and plans without a fault.** -/
structure Faultless (names : List String) (plans : List Plan) : Prop where
  nodup : names.Nodup
  sound : ∀ p ∈ plans, p.Sound α names

/-- **The first fault of names and plans**: a name that occurs before, or else the first plan that fails. -/
inductive FirstFault (names : List String) (plans : List Plan) : GraphError → Prop
  | name {before name after} (hnames : names = before ++ name :: after) (hbefore : before.Nodup) (h : name ∈ before) :
      FirstFault names plans (.duplicateName name)
  | plan {before p after e} (hnames : names.Nodup) (hplans : plans = before ++ p :: after)
      (hbefore : ∀ q ∈ before, q.Sound α names) (h : p.Fails α names e) : FirstFault names plans e

variable {α} {names : List String}

theorem Plan.sound_or_fails (names : List String) (p : Plan) : p.Sound α names ∨ ∃ e, p.Fails α names e := by
  by_cases hs : p.source ∈ names
  case neg => exact .inr ⟨_, .source hs⟩
  by_cases hd : p.dest ∈ names
  case neg => exact .inr ⟨_, .dest hs hd⟩
  cases hw : p.weight with
  | none => exact .inl ⟨hs, hd, fun text htext => by rw [hw] at htext; cases htext⟩
  | some text =>
    cases htext : (Expr.ofText text : Except ExprError (Expr α)) with
    | error e => exact .inr ⟨_, .weight hs hd hw htext⟩
    | ok e =>
      refine .inl ⟨hs, hd, fun text' htext' => ?_⟩
      cases hw.symm.trans htext'
      exact ⟨e, htext⟩

/-- **There is no fault, or a first one.** -/
theorem faultless_or_firstFault (names : List String) (plans : List Plan) :
    Faultless α names plans ∨ ∃ e, FirstFault α names plans e := by
  cases hnames : repeated? [] names with
  | some name =>
    obtain ⟨before, after, hnames, hbefore, -, hname⟩ := repeated?_eq_some.mp hnames
    exact .inr ⟨_, .name hnames hbefore (hname.resolve_left List.not_mem_nil)⟩
  | none =>
  have hnodup := (repeated?_eq_none.mp hnames).1
  rcases all_or_first (Plan.sound_or_fails (α := α) names) plans with
    hsound | ⟨before, p, after, hplans, hbefore, e, he⟩
  · exact .inl ⟨hnodup, hsound⟩
  · exact .inr ⟨e, .plan hnodup hplans hbefore he⟩

end Faults

/-! ## Looking up and reading -/

section Placing

variable {α : Type} [Scalar α] {b : Builder} {p : Plan}

theorem lookup_of_mem {name : String} (h : name ∈ b.names) :
    ∃ v, b.lookup name = .ok v ∧ b.names[v.index]? = some name := by
  unfold lookup
  cases hname : b.lookup? name with
  | some v => exact ⟨v, rfl, lookup?_eq_some hname⟩
  | none => exact absurd h (List.idxOf?_eq_none_iff.mp (Option.map_eq_none_iff.mp hname))

theorem lookup_of_not_mem {name : String} (h : name ∉ b.names) : b.lookup name = .error (.unknownName name) := by
  rw [lookup, lookup?, List.idxOf?_eq_none_iff.mpr h]
  rfl

/-- **The branch of a plan**: it has the handle `i`, joins the nodes of the names, and has the weight of the text, or
the weight 1. -/
structure Plan.Realized (names : List String) (i : BranchId) (p : Plan) (c : Branch α) : Prop where
  id : c.id = i
  source : names[c.source.index]? = some p.source
  dest : names[c.dest.index]? = some p.dest
  weight : match p.weight with
    | some text => Expr.ofText text = .ok c.weight
    | none => c.weight = Expr.literal Scalar.one

/-! ## Placing plans -/

/-- Names with the handles of their nodes. -/
def numbered (names : List String) : List (NodeId × String) := names.zipIdx.map fun x => (⟨x.2⟩, x.1)

theorem mem_numbered {names : List String} {v : NodeId} {name : String} :
    (v, name) ∈ numbered names ↔ names[v.index]? = some name := by
  rw [← List.mk_mem_zipIdx_iff_getElem?, numbered, List.mem_map]
  constructor
  · rintro ⟨⟨x, k⟩, hmem, h⟩
    cases h
    exact hmem
  · exact fun h => ⟨(name, v.index), h, rfl⟩

/-- **A graph with some plans in their places**: its nodes are the names, its branches are those of the plans, and it
knows their numbers. -/
structure Placed (names : List String) (plans : List Plan) (g : Graph α) : Prop where
  wellFormed : g.WellFormed
  shows : g.Shows
    { nodes := numbered names, branches := g.liveBranches, nodesMade := names.length, branchesMade := plans.length }
  realized : List.Forall₂ (fun x c => x.1.Realized names ⟨x.2⟩ c) plans.zipIdx g.liveBranches

namespace Placed

variable {names : List String} {plans : List Plan} {g : Graph α}

theorem empty : Placed [] [] ({} : Graph α) := ⟨.empty, .empty, .nil⟩

theorem createNode (h : Placed names [] g) (name : String) : Placed (names ++ [name]) [] (g.createNode name).2 := by
  refine ⟨h.wellFormed.createNode name, ?_, ?_⟩
  · have hnumbered : numbered (names ++ [name]) = numbered names ++ [(⟨names.length⟩, name)] := by
      rw [numbered, List.zipIdx_append, List.map_append]
      simp [numbered]
    rw [hnumbered, List.length_append]
    exact h.shows.createNode name
  · have hnone : g.liveBranches = [] := List.forall₂_nil_left_iff.mp h.realized
    show List.Forall₂ _ [] g.liveBranches
    rw [hnone]
    exact .nil

theorem createNodes (h : Placed names [] g) (more : List String) :
    Placed (names ++ more) [] (more.foldl (fun g name => (g.createNode name).2) g) := by
  induction more generalizing names g with
  | nil => rwa [List.append_nil]
  | cons name rest ih =>
    rw [List.append_cons]
    exact ih (h.createNode name)

/-- A handle of a name is that of a live node. -/
theorem node? (h : Placed names plans g) (v : NodeId) : (g.node? v).map Node.name = names[v.index]? := by
  have hnodes : g.liveNodes.map (fun n => (n.id, n.name)) = numbered names := h.shows.nodes
  refine Option.ext fun name => ?_
  rw [← mem_numbered, ← hnodes, List.mem_map, Option.map_eq_some_iff]
  constructor
  · rintro ⟨n, hn, rfl⟩
    have hid : n.id = v := h.wellFormed.node_id hn
    exact ⟨n, h.wellFormed.mem_liveNodes.mpr (hid ▸ hn), Prod.ext hid rfl⟩
  · rintro ⟨n, hn, heq⟩
    cases heq
    exact ⟨n, h.wellFormed.mem_liveNodes.mp hn, rfl⟩

/-- **A sound plan is placed** behind those placed before. -/
theorem place (h : Placed b.names plans g) (hp : p.Sound α b.names) :
    ∃ g', b.place g p = .ok g' ∧ Placed b.names (plans ++ [p]) g' := by
  -- both ends are live and the weight is read, so nothing is left that could refuse the branch
  have hlive : ∀ {v : NodeId} {name}, b.names[v.index]? = some name → ∃ n, g.node? v = some n := by
    intro v name hv
    obtain ⟨n, hn, -⟩ := Option.map_eq_some_iff.mp ((h.node? v).trans hv)
    exact ⟨n, hn⟩
  obtain ⟨v, hsource, hv⟩ := lookup_of_mem hp.source
  obtain ⟨w, hdest, hw⟩ := lookup_of_mem hp.dest
  obtain ⟨weight, hweight, hread⟩ : ∃ weight : Option (Expr α), readWeight p.weight = .ok weight ∧
      match p.weight with
      | some text => Expr.ofText text = .ok (weight.getD (Expr.literal Scalar.one))
      | none => weight.getD (Expr.literal Scalar.one) = Expr.literal Scalar.one := by
    cases htext : p.weight with
    | none => exact ⟨none, rfl, rfl⟩
    | some text =>
      obtain ⟨e, he⟩ := hp.weight text htext
      refine ⟨some e, ?_, he⟩
      rw [readWeight, he]
  obtain ⟨n, hn⟩ := hlive hv
  obtain ⟨m, hm⟩ := hlive hw
  obtain ⟨g', hconnect, hshows⟩ := h.shows.connect h.wellFormed hn hm weight
  have hbranches : g'.liveBranches = g.liveBranches ++ [_] := hshows.branches
  refine ⟨g', ?_, h.wellFormed.perform (c := .connect v w weight) ?_, ?_, ?_⟩
  · unfold Builder.place
    rw [hsource, hdest, hweight]
    show (g.connect v w weight >>= fun x => pure x.2) = _
    rw [hconnect]
    rfl
  · rw [Graph.perform, hconnect]
    rfl
  · rw [hbranches, List.length_append]
    exact hshows
  · rw [hbranches, List.zipIdx_append]
    refine List.rel_append h.realized (.cons ⟨?_, hv, hw, hread⟩ .nil)
    simp

/-- Sound plans are placed one behind the other. -/
theorem placeAll (h : Placed b.names plans g) {ps : List Plan} (hps : ∀ p ∈ ps, p.Sound α b.names) :
    ∃ g', b.placeAll g ps = .ok g' ∧ Placed b.names (plans ++ ps) g' := by
  induction ps generalizing g plans with
  | nil => exact ⟨g, rfl, by rwa [List.append_nil]⟩
  | cons p rest ih =>
    obtain ⟨hp, hrest⟩ := List.forall_mem_cons.mp hps
    obtain ⟨g₁, hok₁, h₁⟩ := h.place hp
    obtain ⟨g₂, hok₂, h₂⟩ := ih h₁ hrest
    refine ⟨g₂, ?_, by rwa [List.append_assoc] at h₂⟩
    rw [Builder.placeAll, hok₁]
    exact hok₂

theorem check (h : Placed names plans g) : g.check = .ok () := by
  refine Graph.check_eq_ok h.wellFormed ?_ h.shows.branchCount.symm
  rw [h.shows.nodeCount, ← h.shows.nodes, List.length_map]

end Placed

/-- A plan that fails is not placed. -/
theorem place_fails {e : GraphError} (h : p.Fails α b.names e) (g : Graph α) : b.place g p = .error e := by
  unfold place
  cases h with
  | source hs =>
    rw [lookup_of_not_mem hs]
    rfl
  | dest hs hd =>
    obtain ⟨v, hv, -⟩ := lookup_of_mem hs
    rw [hv, lookup_of_not_mem hd]
    rfl
  | weight hs hd htext herror =>
    obtain ⟨v, hv, -⟩ := lookup_of_mem hs
    obtain ⟨w, hw, -⟩ := lookup_of_mem hd
    rw [hv, hw, htext, readWeight, herror]
    rfl

end Placing

/-! ## Building -/

section Building

variable {α : Type} [Scalar α] {b : Builder}

/-- **A graph of names and plans**: its nodes are the names, each with its index for a handle, its branches are those of
the plans, in their order, and it passes its check. -/
structure Built (names : List String) (plans : List Plan) (g : Graph α) : Prop where
  nodes : g.liveNodes.map (fun n => (n.id, n.name)) = numbered names
  branches : List.Forall₂ (fun x c => x.1.Realized names ⟨x.2⟩ c) plans.zipIdx g.liveBranches
  nodeCount : g.nodeCount = names.length
  check : g.check = .ok ()

theorem Placed.built {names : List String} {plans : List Plan} {g : Graph α} (h : Placed names plans g) :
    Built names plans g :=
  ⟨h.shows.nodes, h.realized, by rw [h.shows.nodeCount, numbered, List.length_map, List.length_zipIdx], h.check⟩

/-- What is built of names that are different from each other. -/
theorem build_of_nodup (h : b.names.Nodup) : ∃ g₀ : Graph α, Placed b.names [] g₀ ∧
    b.build = (b.placeAll g₀ b.plans >>= fun g => g.check >>= fun _ => pure g) := by
  refine ⟨_, by simpa using Placed.empty.createNodes b.names, ?_⟩
  have hnone : repeated? [] b.names = none := repeated?_eq_none.mpr ⟨h, fun _ _ => List.not_mem_nil⟩
  rw [build, hnone]

/-- **Without a fault the graph of the names and plans is built.** -/
theorem build_faultless (h : Faultless α b.names b.plans) :
    ∃ g : Graph α, b.build = .ok g ∧ Placed b.names b.plans g := by
  obtain ⟨g₀, h₀, hbuild⟩ := build_of_nodup (α := α) h.nodup
  obtain ⟨g, hplace, hg⟩ := h₀.placeAll h.sound
  refine ⟨g, ?_, hg⟩
  rw [hbuild, hplace]
  show (g.check >>= fun _ => pure g) = _
  rw [hg.check]
  rfl

theorem placeAll_fails {g₀ g : Graph α} {before after : List Plan} {p : Plan} {e : GraphError}
    (hbefore : b.placeAll g₀ before = .ok g) (h : p.Fails α b.names e) :
    b.placeAll g₀ (before ++ p :: after) = .error e := by
  induction before generalizing g₀ with
  | nil =>
    rw [List.nil_append, placeAll, place_fails h]
    rfl
  | cons q rest ih =>
    rw [placeAll] at hbefore
    rw [List.cons_append, placeAll]
    cases hq : b.place g₀ q with
    | error e' => rw [hq] at hbefore; cases hbefore
    | ok g₁ =>
      rw [hq] at hbefore
      exact ih hbefore

/-- **A first fault is reported.** -/
theorem build_firstFault {e : GraphError} (h : FirstFault α b.names b.plans e) :
    (b.build : Except GraphError (Graph α)) = .error e := by
  cases h with
  | name hnames hnodup hname =>
    have hsome := repeated?_eq_some.mpr ⟨_, _, hnames, hnodup, fun _ _ => List.not_mem_nil, .inr hname⟩
    rw [build, hsome]
    rfl
  | plan hnames hplans hbefore hfails =>
    obtain ⟨g₀, h₀, hbuild⟩ := build_of_nodup (α := α) hnames
    obtain ⟨g, hplace, -⟩ := h₀.placeAll hbefore
    rw [hbuild, hplans, placeAll_fails hplace hfails]
    rfl

/-- **There is a graph just when there is no fault**, and an error just when it is the first fault. -/
theorem build_iff (b : Builder) : ((∃ g : Graph α, b.build = .ok g) ↔ Faultless α b.names b.plans) ∧
    ∀ e, (b.build : Except GraphError (Graph α)) = .error e ↔ FirstFault α b.names b.plans e := by
  refine outcome_iff (fun h => ?_) (fun _ => build_firstFault) (faultless_or_firstFault b.names b.plans)
  obtain ⟨g, hok, -⟩ := build_faultless h
  exact ⟨g, hok⟩

/-- What is built has the plans in their places. -/
theorem placed_of_build {g : Graph α} (h : b.build = .ok g) : Placed b.names b.plans g := by
  obtain ⟨g', hok, hplaced⟩ := build_faultless (b.build_iff.1.mp ⟨g, h⟩)
  cases h.symm.trans hok
  exact hplaced

/-- **A builder builds what was asked for, or reports the first fault.** After any run of calls there is a graph just
when names and plans have no fault: the graph of the names and plans, in which every handle that was answered is that
of a node with the name of its call, or the one that it was given last. Otherwise their first fault is reported. -/
theorem build_exact (calls : List Call) :
    ∃ answers b, run calls {} = (answers, b) ∧ b.plans = calls.filterMap Call.plan? ∧
      ((∃ g : Graph α, b.build = .ok g) ↔ Faultless α b.names b.plans) ∧
      (∀ e, (b.build : Except GraphError (Graph α)) = .error e ↔ FirstFault α b.names b.plans e) ∧
      ∀ g : Graph α, b.build = .ok g → Built b.names b.plans g ∧
        ∀ k v, answers[k]? = some (some v) → ∃ c name, calls[k]? = some c ∧ c.node? = some name ∧
          (g.node? v).map Node.name = some ((calls.drop (k + 1)).foldl (Call.renamed v) name) := by
  refine ⟨_, _, rfl, plans_run calls {}, (build_iff _).1, (build_iff _).2, fun g hok => ?_⟩
  have hplaced := placed_of_build hok
  refine ⟨hplaced.built, fun k v hv => ?_⟩
  obtain ⟨c, name, hc, hname, hfinal⟩ := answered_run hv
  exact ⟨c, name, hc, hname, (hplaced.node? v).trans hfinal⟩

end Building

end Builder

end SignalFlow
