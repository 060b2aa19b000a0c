import SignalFlow.Command.Outline
import SignalFlow.Proofs.Graph.Builder
import SignalFlow.Proofs.Text.Parts

/-!
# The graphs of descriptions

What text writes a branch (`Writes`) decides which plans a description makes, and the names that it mentions are the
nodes, each where it is mentioned first (`mentioned`). So no name is used twice and every end of a branch is known: what
can be wrong with a description is a text that writes no branch, a weight that is no expression, or its size (`Fault`),
and without such a fault it has a graph (`Outline.graph_exact`).
-/

namespace SignalFlow.Command

open Builder (Plan Built)

/-! ## Texts of branches -/

/-- How the ends of a branch are written: with a colon between them, the first in the text. -/
def WritesEnds (cs : List Char) (source dest : String) : Prop :=
  ∃ before after, cs = before ++ ':' :: after ∧ ':' ∉ before ∧ Text.Part before source ∧ Text.Part after dest

/-- **How a branch is written**: its ends, and then, if there is an equals sign, what stands behind the first one is the
weight. -/
inductive Writes (text : String) : Plan → Prop
  | plain {source dest} (hmark : '=' ∉ text.toList) (h : WritesEnds text.toList source dest) :
      Writes text ⟨source, dest, none⟩
  | weighted {ends value source dest weight} (htext : text.toList = ends ++ '=' :: value) (hmark : '=' ∉ ends)
      (h : WritesEnds ends source dest) (hweight : Text.Part value weight) : Writes text ⟨source, dest, some weight⟩

theorem writesEnds_iff {cs : List Char} {source dest : String} : WritesEnds cs source dest ↔
    ∃ before after, Text.cut? ':' cs = some (before, after) ∧ Text.Part before source ∧ Text.Part after dest := by
  simp only [WritesEnds, Text.cut?_eq_some_iff, and_assoc]

/-- What is read from a text without an equals sign. -/
theorem planOf?_plain {text : String} {p : Plan} (hmark : '=' ∉ text.toList) :
    planOf? text = some p ↔ ∃ source dest, WritesEnds text.toList source dest ∧ p = ⟨source, dest, none⟩ := by
  simp only [planOf?, Text.cut?_eq_none hmark, writesEnds_iff]
  rcases Text.cut? ':' text.toList with _ | ⟨before, after⟩
  · simp
  · simp [Text.part_iff, and_assoc, eq_comm (a := p)]

/-- What is read from a text with an equals sign. -/
theorem planOf?_weighted {text : String} {ends value : List Char} {p : Plan}
    (htext : text.toList = ends ++ '=' :: value) (hmark : '=' ∉ ends) : planOf? text = some p ↔
      ∃ source dest weight, WritesEnds ends source dest ∧ Text.Part value weight ∧ p = ⟨source, dest, some weight⟩ := by
  simp only [planOf?, htext, Text.cut?_append value hmark, writesEnds_iff]
  rcases Text.cut? ':' ends with _ | ⟨before, after⟩
  · simp
  · simp [Text.part_iff, and_assoc, eq_comm (a := p)]

/-- **The plan that is read from a text is the one that it writes.** -/
theorem planOf?_eq_some_iff {text : String} {p : Plan} : planOf? text = some p ↔ Writes text p := by
  constructor
  · intro h
    by_cases hmem : '=' ∈ text.toList
    · obtain ⟨ends, value, htext, hmark⟩ := List.eq_append_cons_of_mem hmem
      obtain ⟨source, dest, weight, hends, hweight, rfl⟩ := (planOf?_weighted htext hmark).mp h
      exact .weighted htext hmark hends hweight
    · obtain ⟨source, dest, hends, rfl⟩ := (planOf?_plain hmem).mp h
      exact .plain hmem hends
  · rintro (⟨hmark, hends⟩ | ⟨htext, hmark, hends, hweight⟩)
    · exact (planOf?_plain hmark).mpr ⟨_, _, hends, rfl⟩
    · exact (planOf?_weighted htext hmark).mpr ⟨_, _, _, hends, hweight, rfl⟩

-- The first equals sign counts, and the first colon before it.
example : planOf? " a :b:c = k=2" = some ⟨"a", "b:c", some "k=2"⟩ := by decide

/-! ## Names that are mentioned -/

theorem eraseDups_concat (names : List String) (name : String) :
    (names ++ [name]).eraseDups = if name ∈ names then names.eraseDups else names.eraseDups ++ [name] := by
  rw [List.eraseDups_append]
  by_cases h : name ∈ names <;> simp [List.removeAll, h, List.eraseDups_cons]

theorem nodup_eraseDups (names : List String) : names.eraseDups.Nodup := by
  induction names using List.reverseRecOn with
  | nil => exact .nil
  | append_singleton names name ih =>
    rw [eraseDups_concat]
    split
    case isTrue => exact ih
    case isFalse h =>
      exact List.nodup_append.mpr ⟨ih, List.nodup_singleton _, by grind [List.mem_eraseDups]⟩

/-- The ends of a branch. -/
def endsOf (p : Plan) : List String := [p.source, p.dest]

/-- **The names that are mentioned**: names on their own, then the ends of plans, each where it stands first. -/
def mentioned (names : List String) (plans : List Plan) : List String := (names ++ plans.flatMap endsOf).eraseDups

/-- **A builder with names that are mentioned, and with plans.** -/
structure Noted (said : List String) (plans : List Plan) (b : Builder) : Prop where
  names : b.names = said.eraseDups
  plans : b.plans = plans

namespace Noted

variable {said : List String} {plans : List Plan} {b : Builder}

theorem empty : Noted [] [] {} := ⟨rfl, rfl⟩

theorem ensureNode (h : Noted said plans b) (name : String) : Noted (said ++ [name]) plans (b.ensureNode name).2 := by
  have hnone : b.lookup? name = none ↔ name ∉ said := by
    rw [Builder.lookup?, Option.map_eq_none_iff, List.idxOf?_eq_none_iff, h.names, List.mem_eraseDups]
  unfold Builder.ensureNode
  cases hname : b.lookup? name with
  | none => exact ⟨by rw [eraseDups_concat, if_neg (hnone.mp hname), ← h.names]; rfl, h.plans⟩
  | some v =>
    have hmem : name ∈ said := by
      by_contra hmem
      cases (hnone.mpr hmem).symm.trans hname
    exact ⟨by rw [eraseDups_concat, if_pos hmem, h.names], h.plans⟩

theorem ensureNodes (h : Noted said plans b) (more : List String) :
    Noted (said ++ more) plans (more.foldl (fun b name => (b.ensureNode name).2) b) := by
  induction more generalizing said b with
  | nil => rwa [List.append_nil]
  | cons name rest ih =>
    rw [List.append_cons]
    exact ih (h.ensureNode name)

theorem addPlan (h : Noted said plans b) (p : Plan) : Noted (said ++ endsOf p) (plans ++ [p]) (addPlan b p) := by
  have hends := (h.ensureNode p.source).ensureNode p.dest
  refine ⟨?_, congrArg (· ++ [p]) hends.plans⟩
  rw [endsOf, List.append_cons]
  exact hends.names

/-- **Texts that write plans** add these, and mention their ends. -/
theorem addBranches (h : Noted said plans b) {texts : List String} {more : List Plan}
    (hmore : List.Forall₂ Writes texts more) :
    ∃ b', addBranches b texts = .ok b' ∧ Noted (said ++ more.flatMap endsOf) (plans ++ more) b' := by
  induction hmore generalizing said plans b with
  | nil => exact ⟨b, rfl, by simpa using h⟩
  | @cons text p texts more hp _ ih =>
    obtain ⟨b', hok, hb'⟩ := ih (h.addPlan p)
    refine ⟨b', ?_, by simpa using hb'⟩
    rw [Command.addBranches, planOf?_eq_some_iff.mpr hp]
    exact hok

end Noted

theorem exists_plans {texts : List String} (h : ∀ text ∈ texts, ∃ p, Writes text p) :
    ∃ plans, List.Forall₂ Writes texts plans := by
  induction texts with
  | nil => exact ⟨[], .nil⟩
  | cons text rest ih =>
    obtain ⟨⟨p, hp⟩, hrest⟩ := List.forall_mem_cons.mp h
    obtain ⟨plans, hplans⟩ := ih hrest
    exact ⟨p :: plans, .cons hp hplans⟩

/-- A text that writes no branch ends the adding. -/
theorem addBranches_fails {before after : List String} {text : String} (b : Builder)
    (hbefore : ∀ text ∈ before, ∃ p, Writes text p) (h : ∀ p, ¬Writes text p) :
    addBranches b (before ++ text :: after) = .error (.invalidBranch text) := by
  obtain ⟨plans, hplans⟩ := exists_plans hbefore
  clear hbefore
  induction hplans generalizing b with
  | nil =>
    have hnone : planOf? text = none :=
      Option.eq_none_iff_forall_ne_some.mpr fun p hp => h p (planOf?_eq_some_iff.mp hp)
    rw [List.nil_append, addBranches, hnone]
  | @cons first p before plans hp _ ih =>
    rw [List.cons_append, addBranches, planOf?_eq_some_iff.mpr hp]
    exact ih (addPlan b p)

/-! ## Graphs -/

namespace Outline

variable (α : Type) [Scalar α]

/-- **A description without a fault**: its texts write plans, their weights are expressions, and it is not too large. -/
structure Accepted (o : Outline) (plans : List Plan) : Prop where
  written : List.Forall₂ Writes o.branches plans
  readable : ∀ p ∈ plans, p.Readable α
  size : (mentioned o.nodes plans).length ≤ o.maxNodes

/-- **What is wrong with a description**: the first text that writes no branch, or else the first weight that is no
expression, or else its size. -/
inductive Fault (o : Outline) : CommandError → Prop
  | branch {before text after} (hbranches : o.branches = before ++ text :: after)
      (hbefore : ∀ text ∈ before, ∃ p, Writes text p) (h : ∀ p, ¬Writes text p) : Fault o (.invalidBranch text)
  | weight {before p after text e} (hwritten : List.Forall₂ Writes o.branches (before ++ p :: after))
      (hbefore : ∀ q ∈ before, q.Readable α) (htext : p.weight = some text)
      (h : (Expr.ofText text : Except ExprError (Expr α)) = .error e) : Fault o (.graph (.weight text e))
  | size {plans} (hwritten : List.Forall₂ Writes o.branches plans) (hreadable : ∀ p ∈ plans, p.Readable α)
      (h : o.maxNodes < (mentioned o.nodes plans).length) :
      Fault o (.solver (.tooLarge (mentioned o.nodes plans).length o.maxNodes))

variable {α} {o : Outline} {plans : List Plan}

/-- Both ends of a plan are mentioned. -/
theorem ends_mentioned (names : List String) {p : Plan} (hp : p ∈ plans) :
    p.source ∈ mentioned names plans ∧ p.dest ∈ mentioned names plans := by
  have hends : ∀ name ∈ endsOf p, name ∈ mentioned names plans := by
    intro name hname
    rw [mentioned, List.mem_eraseDups, List.mem_append, List.mem_flatMap]
    exact .inr ⟨p, hp, hname⟩
  exact ⟨hends _ List.mem_cons_self, hends _ (List.mem_cons_of_mem _ List.mem_cons_self)⟩

/-- So a plan fails only for its weight. -/
theorem sound_of_readable {names : List String} {p : Plan} (hp : p ∈ plans) (h : p.Readable α) :
    p.Sound α (mentioned names plans) :=
  ⟨(ends_mentioned names hp).1, (ends_mentioned names hp).2, h⟩

/-- The builder of a description whose texts write plans. -/
theorem builder_of_written (h : List.Forall₂ Writes o.branches plans) :
    ∃ b, o.builder = .ok b ∧ b.names = mentioned o.nodes plans ∧ b.plans = plans := by
  obtain ⟨b, hok, hnames, hplans⟩ := (Noted.empty.ensureNodes o.nodes).addBranches h
  exact ⟨b, hok, hnames, hplans⟩

/-- What is made of a description whose weights are expressions. -/
theorem graph_of_readable (hwritten : List.Forall₂ Writes o.branches plans) (hreadable : ∀ p ∈ plans, p.Readable α) :
    ∃ g : Graph α, Built (mentioned o.nodes plans) plans g ∧ o.graph =
      if o.maxNodes < (mentioned o.nodes plans).length
      then .error (.solver (.tooLarge (mentioned o.nodes plans).length o.maxNodes)) else .ok g := by
  obtain ⟨b, hok, hnames, hplans⟩ := builder_of_written hwritten
  have hsound : ∀ p ∈ b.plans, p.Sound α b.names := by
    rw [hnames, hplans]
    exact fun p hp => sound_of_readable hp (hreadable p hp)
  obtain ⟨g, hbuild, hplaced⟩ := Builder.build_faultless ⟨hnames ▸ nodup_eraseDups _, hsound⟩
  have hbuilt : Built (mentioned o.nodes plans) plans g := hnames ▸ hplans ▸ hplaced.built
  refine ⟨g, hbuilt, ?_⟩
  rw [graph, hok, ← hbuilt.nodeCount]
  show ((b.build.mapError .graph >>= _ : Except CommandError (Graph α))) = _
  rw [hbuild]
  split
  case isTrue h => exact if_pos h
  case isFalse h => exact if_neg h

/-- **A fault is reported.** -/
theorem graph_fault {e : CommandError} (h : o.Fault α e) : (o.graph : Except CommandError (Graph α)) = .error e := by
  cases h with
  | branch hbranches hbefore hbad =>
    rw [graph, builder, hbranches, addBranches_fails _ hbefore hbad]
    rfl
  | @weight before p after text e hwritten hbefore htext herror =>
    obtain ⟨b, hok, hnames, hplans⟩ := builder_of_written hwritten
    have hfirst : Builder.FirstFault α b.names b.plans (.weight text e) := by
      rw [hnames, hplans]
      have hends := ends_mentioned o.nodes (List.mem_append_cons_self : p ∈ before ++ p :: after)
      refine .plan (nodup_eraseDups _) rfl (fun q hq => ?_) (.weight hends.1 hends.2 htext herror)
      exact sound_of_readable (List.mem_append_left _ hq) (hbefore q hq)
    rw [graph, hok]
    show ((b.build.mapError .graph >>= _ : Except CommandError (Graph α))) = _
    rw [Builder.build_firstFault hfirst]
    rfl
  | size hwritten hreadable hsize =>
    obtain ⟨g, -, hgraph⟩ := graph_of_readable hwritten hreadable
    rw [hgraph, if_pos hsize]

/-- **A description without a fault has a graph.** -/
theorem Accepted.graph (h : o.Accepted α plans) :
    ∃ g : Graph α, o.graph = .ok g ∧ Built (mentioned o.nodes plans) plans g := by
  obtain ⟨g, hbuilt, hgraph⟩ := graph_of_readable h.written h.readable
  exact ⟨g, by rw [hgraph, if_neg (Nat.not_lt.mpr h.size)], hbuilt⟩

/-- **A description has no fault, or one.** -/
theorem accepted_or_fault (o : Outline) : (∃ plans, o.Accepted α plans) ∨ ∃ e, o.Fault α e := by
  have hwrites (text : String) : (∃ p, Writes text p) ∨ ∀ p, ¬Writes text p :=
    (Classical.em _).imp_right not_exists.mp
  rcases all_or_first hwrites o.branches with hall | ⟨before, text, after, hbranches, hbefore, hbad⟩
  case inr => exact .inr ⟨_, .branch hbranches hbefore hbad⟩
  obtain ⟨plans, hwritten⟩ := exists_plans hall
  rcases all_or_first (Plan.sound_or_fails (α := α) (mentioned o.nodes plans)) plans with
    hsound | ⟨before, p, after, rfl, hbefore, e, hfails⟩
  · have hreadable : ∀ p ∈ plans, p.Readable α := fun p hp => (hsound p hp).weight
    by_cases hsize : (mentioned o.nodes plans).length ≤ o.maxNodes
    · exact .inl ⟨plans, hwritten, hreadable, hsize⟩
    · exact .inr ⟨_, .size hwritten hreadable (Nat.not_le.mp hsize)⟩
  · -- the ends of the plan are mentioned, which leaves its weight
    have hends := ends_mentioned o.nodes (List.mem_append_cons_self : p ∈ before ++ p :: after)
    cases hfails with
    | source hs => exact absurd hends.1 hs
    | dest _ hd => exact absurd hends.2 hd
    | weight _ _ htext herror =>
      exact .inr ⟨_, .weight hwritten (fun q hq => (hbefore q hq).weight) htext herror⟩

/-- **There is a graph just when there is no fault**, and an error just when it is a fault. -/
theorem graph_iff (o : Outline) : ((∃ g : Graph α, o.graph = .ok g) ↔ ∃ plans, o.Accepted α plans) ∧
    ∀ e, (o.graph : Except CommandError (Graph α)) = .error e ↔ o.Fault α e := by
  refine outcome_iff (fun ⟨plans, h⟩ => ?_) (fun _ => graph_fault) (accepted_or_fault o)
  obtain ⟨g, hok, -⟩ := h.graph
  exact ⟨g, hok⟩

/-- **A description has a graph, or a fault of its texts.** There is a graph just when every text writes a branch with a
weight, if any, that is an expression, and there are not too many names: its nodes are the names that are mentioned, its
branches those of the texts. Otherwise the first fault is reported; of the faults of a builder this can only be a
weight, no name that is used twice or is not known. -/
theorem graph_exact (o : Outline) :
    ((∃ g : Graph α, o.graph = .ok g) ↔ ∃ plans, o.Accepted α plans) ∧
      (∀ g : Graph α, o.graph = .ok g →
        ∃ plans, List.Forall₂ Writes o.branches plans ∧ Built (mentioned o.nodes plans) plans g) ∧
      (∀ e, (o.graph : Except CommandError (Graph α)) = .error e ↔ o.Fault α e) ∧
      ∀ e, (o.graph : Except CommandError (Graph α)) = .error (.graph e) → ∃ text cause, e = .weight text cause := by
  refine ⟨o.graph_iff.1, fun g hok => ?_, o.graph_iff.2, fun e herror => ?_⟩
  · obtain ⟨plans, h⟩ := o.graph_iff.1.mp ⟨g, hok⟩
    obtain ⟨g', hok', hbuilt⟩ := h.graph
    cases hok.symm.trans hok'
    exact ⟨plans, h.written, hbuilt⟩
  · cases (o.graph_iff.2 _).mp herror with
    | weight _ _ _ _ => exact ⟨_, _, rfl⟩

end Outline

end SignalFlow.Command
