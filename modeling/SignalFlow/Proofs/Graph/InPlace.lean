import SignalFlow.Proofs.Graph.Change

/-!
# Changes in place

A caller of a graph changes it in place, write by write, and a change that fails halfway leaves what it has written by
then. `InPlace` is this way of changing; `InPlace.perform` performs every `Change` with its writes in their order.

On a well-formed graph nothing is ever left halfway (`InPlace.on_perform`): a change whose handles are live goes through
and does what `Graph.respond` says, and any other is refused before its first write, so that it leaves the graph as it
was.
-/

namespace SignalFlow.Graph

variable {α β γ : Type}

/-! ## Answers -/

/-- **What a change answers.** -/
inductive Answer (α : Type) where
  | newNode (v : NodeId)
  | oldNode (n : Node)
  | newBranch (i : BranchId)
  | oldBranch (b : Branch α)
  | oldWeight (weight : Expr α)
  | done

/-- The handle of a node that a change has made. -/
def Answer.newNode? : Answer α → Option NodeId
  | .newNode v => some v
  | _ => none

/-- The handle of a branch that a change has made. -/
def Answer.newBranch? : Answer α → Option BranchId
  | .newBranch i => some i
  | _ => none

/-- **The answer of a change and the graph after it**, or why the change is refused. -/
def respond [Scalar α] (g : Graph α) : Change α → Except GraphError (Answer α × Graph α)
  | .createNode name => .ok (.newNode (g.createNode name).1, (g.createNode name).2)
  | .destroyNode v => (g.destroyNode v).map fun r => (.oldNode r.1, r.2)
  | .connect source dest weight => (g.connect source dest weight).map fun r => (.newBranch r.1, r.2)
  | .destroyBranch i => (g.destroyBranch i).map fun r => (.oldBranch r.1, r.2)
  | .setWeight i weight => (g.setWeight i weight).map fun r => (.oldWeight r.1, r.2)
  | .rename v name => (g.rename v name).map fun g => (.done, g)

/-- The answer apart, `respond` is `perform`. -/
theorem map_snd_respond [Scalar α] (g : Graph α) (c : Change α) : (g.respond c).map Prod.snd = g.perform c := by
  cases c with
  | createNode name => rfl
  | destroyNode v => simp only [respond, perform]; cases g.destroyNode v <;> rfl
  | connect source dest weight => simp only [respond, perform]; cases g.connect source dest weight <;> rfl
  | destroyBranch i => simp only [respond, perform]; cases g.destroyBranch i <;> rfl
  | setWeight i weight => simp only [respond, perform]; cases g.setWeight i weight <;> rfl
  | rename v name => simp only [respond, perform]; cases g.rename v name <;> rfl

/-! ## Writing in place -/

/-- **A change in place**: what it has written when it fails stays written. -/
abbrev InPlace (α β : Type) := ExceptT GraphError (StateM (Graph α)) β

namespace InPlace

/-- What a change in place answers on a graph, and the graph that it leaves. -/
def on (x : InPlace α β) (g : Graph α) : Except GraphError β × Graph α := StateT.run (ExceptT.run x) g

/-- Looks something up, or fails if it is not there. -/
def look (f : Graph α → Except GraphError β) : InPlace α β := ExceptT.mk fun g => (f g, g)

/-- Writes. -/
def write (f : Graph α → Graph α) : InPlace α Unit := ExceptT.mk fun g => (.ok (), f g)

@[simp] theorem on_pure (x : β) (g : Graph α) : (pure x : InPlace α β).on g = (.ok x, g) := rfl

@[simp] theorem on_look (f : Graph α → Except GraphError β) (g : Graph α) : (look f).on g = (f g, g) := rfl

@[simp] theorem on_write (f : Graph α → Graph α) (g : Graph α) : (write f).on g = (.ok (), f g) := rfl

/-- What follows a change sees what it has written; nothing follows a change that fails. -/
theorem on_bind (x : InPlace α β) (f : β → InPlace α γ) (g : Graph α) :
    (x >>= f).on g = match x.on g with
      | (.ok b, g') => (f b).on g'
      | (.error e, g') => (.error e, g') := by
  unfold on
  simp only [ExceptT.run, StateT.run, bind, ExceptT.bind, ExceptT.mk, StateT.bind]
  cases x g with
  | mk r g' => cases r <;> rfl

/-! ## The changes -/

/-- Adds a node. -/
def createNode (name : String) : InPlace α NodeId := do
  let id : NodeId ← look fun g => .ok ⟨g.nodes.size⟩
  write fun g => { g with nodes := g.nodes.push (some { id, name }) }
  write fun g => { g with nodeCount := g.nodeCount + 1 }
  return id

/-- Removes a branch: from the registry, then from the lists of its ends. -/
def destroyBranch (i : BranchId) : InPlace α (Branch α) := do
  let b ← look (·.branch i)
  write fun g => { g with branches := g.branches.setIfInBounds i.index none }
  write fun g => { g with branchCount := g.branchCount - 1 }
  let s ← look (·.node b.source)
  write (·.setNode { s with outgoing := s.outgoing.filter (· ≠ i) })
  let d ← look (·.node b.dest)
  write (·.setNode { d with incoming := d.incoming.filter (· ≠ i) })
  return b

/-- Removes branches one after the other. -/
def destroyBranches : List BranchId → InPlace α Unit
  | [] => pure ()
  | i :: rest => do
    let _ ← destroyBranch i
    destroyBranches rest

/-- Removes a node: first the branches that touch it, then the node. -/
def destroyNode (v : NodeId) : InPlace α Node := do
  let n ← look (·.node v)
  destroyBranches n.incident
  let n ← look (·.node v)
  write fun g => { g with nodes := g.nodes.setIfInBounds v.index none }
  write fun g => { g with nodeCount := g.nodeCount - 1 }
  return n

/-- Adds a branch: to the registry, then to the lists of its ends. -/
def connect [Scalar α] (source dest : NodeId) (weight : Option (Expr α)) : InPlace α BranchId := do
  let _ ← look (·.node source)
  let _ ← look (·.node dest)
  let id : BranchId ← look fun g => .ok ⟨g.branches.size⟩
  let b : Branch α := { id, source, dest, weight := weight.getD (Expr.literal Scalar.one) }
  write fun g => { g with branches := g.branches.push (some b) }
  write fun g => { g with branchCount := g.branchCount + 1 }
  let s ← look (·.node source)
  write (·.setNode { s with outgoing := s.outgoing ++ [id] })
  let d ← look (·.node dest)
  write (·.setNode { d with incoming := d.incoming ++ [id] })
  return id

/-- Gives a branch another weight. -/
def setWeight (i : BranchId) (weight : Expr α) : InPlace α (Expr α) := do
  let b ← look (·.branch i)
  write fun g => { g with branches := g.branches.setIfInBounds i.index (some { b with weight }) }
  return b.weight

/-- Gives a node another name. -/
def rename (v : NodeId) (name : String) : InPlace α Unit := do
  let n ← look (·.node v)
  write (·.setNode { n with name })

/-- **Performs a change in place.** -/
def perform [Scalar α] : Change α → InPlace α (Answer α)
  | .createNode name => return .newNode (← createNode name)
  | .destroyNode v => return .oldNode (← destroyNode v)
  | .connect source dest weight => return .newBranch (← connect source dest weight)
  | .destroyBranch i => return .oldBranch (← destroyBranch i)
  | .setWeight i weight => return .oldWeight (← setWeight i weight)
  | .rename v name => do
    rename v name
    return .done

/-! ## Nothing is left halfway -/

/-- **All or nothing**: a change that goes through leaves the graph after it, a change that fails the graph as it
was. -/
def atomic (g : Graph α) : Except GraphError (β × Graph α) → Except GraphError β × Graph α
  | .ok (x, g') => (.ok x, g')
  | .error e => (.error e, g)

variable {g : Graph α}

/-- The answer of a change in place may be repackaged. -/
theorem on_map_atomic {x : InPlace α β} {r : Except GraphError (β × Graph α)} (h : x.on g = atomic g r) (f : β → γ) :
    (x >>= fun b => pure (f b)).on g = atomic g (r.map fun p => (f p.1, p.2)) := by
  rw [on_bind, h]
  cases r <;> rfl

theorem on_createNode (name : String) :
    (createNode name).on g = (.ok (g.createNode name).1, (g.createNode name).2) := by
  simp only [createNode, on_bind, on_look, on_write, on_pure]
  rfl

/-- A branch that the registries let go of is removed with all writes. -/
theorem on_destroyBranch_of_ok {i : BranchId} {b : Branch α} {g' : Graph α} (h : g.destroyBranch i = .ok (b, g')) :
    (destroyBranch i).on g = (.ok b, g') := by
  simp only [Graph.destroyBranch, bind, Except.bind] at h
  simp only [destroyBranch, on_bind, on_look, on_write, on_pure]
  cases hb : g.branch i with
  | error e => simp only [hb] at h; cases h
  | ok c =>
    simp only [hb] at h ⊢
    split at h
    · cases h
    · next s hs =>
      simp only [hs]
      split at h
      · cases h
      · next d hd =>
        simp only [hd]
        cases h
        rfl

theorem on_destroyBranch (hg : g.WellFormed) (i : BranchId) :
    (destroyBranch i).on g = atomic g (g.destroyBranch i) := by
  cases hb : g.branch? i with
  | some b =>
    obtain ⟨g', hok, -⟩ := hg.destroyBranch_ok hb
    rw [on_destroyBranch_of_ok hok, hok]
    rfl
  | none =>
    have hbranch : g.branch i = .error (.branchNotFound i) := by rw [branch, hb]
    simp only [destroyBranch, Graph.destroyBranch, on_bind, on_look, hbranch]
    rfl

theorem on_destroyBranches_of_ok {is : List BranchId} {g' : Graph α} (h : g.destroyBranches is = .ok g') :
    (destroyBranches is).on g = (.ok (), g') := by
  induction is generalizing g with
  | nil =>
    cases h
    rfl
  | cons i rest ih =>
    rw [Graph.destroyBranches] at h
    cases hi : g.destroyBranch i with
    | error e => rw [hi] at h; cases h
    | ok r =>
      rw [hi] at h
      rw [destroyBranches, on_bind, on_destroyBranch_of_ok hi]
      exact ih h

theorem on_destroyNode (hg : g.WellFormed) (v : NodeId) : (destroyNode v).on g = atomic g (g.destroyNode v) := by
  cases hn : g.node? v with
  | none =>
    have hnode : g.node v = .error (.nodeNotFound v) := by rw [node, hn]
    simp only [destroyNode, Graph.destroyNode, on_bind, on_look, hnode]
    rfl
  | some n =>
    have hnode : g.node v = .ok n := node_eq_ok_iff.mpr hn
    obtain ⟨g', hok, -, -⟩ := hg.destroyNode_ok hn
    rw [hok]
    simp only [Graph.destroyNode, bind, Except.bind, hnode] at hok
    simp only [destroyNode, on_bind, on_look, on_write, on_pure, hnode]
    split at hok
    · cases hok
    · next g₁ hbs =>
      simp only [on_destroyBranches_of_ok hbs]
      split at hok
      · cases hok
      · next n₁ hn₁ =>
        simp only [hn₁]
        cases hok
        rfl

theorem on_connect [Scalar α] (hg : g.WellFormed) (source dest : NodeId) (weight : Option (Expr α)) :
    (connect source dest weight).on g = atomic g (g.connect source dest weight) := by
  cases hs : g.node? source with
  | none =>
    have hsource : g.node source = .error (.nodeNotFound source) := by rw [node, hs]
    simp only [connect, Graph.connect, on_bind, on_look, hsource]
    rfl
  | some s =>
    have hsource : g.node source = .ok s := node_eq_ok_iff.mpr hs
    cases hd : g.node? dest with
    | none =>
      have hdest : g.node dest = .error (.nodeNotFound dest) := by rw [node, hd]
      simp only [connect, Graph.connect, on_bind, on_look, hsource, hdest]
      rfl
    | some d =>
      have hdest : g.node dest = .ok d := node_eq_ok_iff.mpr hd
      obtain ⟨g', b, rfl, hok, -, -⟩ := hg.connect_ok hs hd weight
      rw [hok]
      simp only [Graph.connect, bind, Except.bind, hsource, hdest] at hok
      split at hok
      · cases hok
      · next d' hd' =>
        -- The new branch does not hide the source.
        have hsource' : ∀ bs k, ({ g with branches := bs, branchCount := k } : Graph α).node source = .ok s :=
          fun _ _ => hsource
        simp only [connect, on_bind, on_look, on_write, on_pure, hsource, hdest, hsource', hd']
        cases hok
        rfl

theorem on_setWeight (i : BranchId) (weight : Expr α) :
    (setWeight i weight).on g = atomic g (g.setWeight i weight) := by
  simp only [setWeight, Graph.setWeight, on_bind, on_look, on_write, on_pure]
  cases g.branch i <;> rfl

theorem on_rename (v : NodeId) (name : String) :
    (rename v name).on g = atomic g ((g.rename v name).map fun g => ((), g)) := by
  simp only [rename, Graph.rename, on_bind, on_look, on_write]
  cases g.node v <;> rfl

/-- **Nothing is left halfway**: a change of a well-formed graph goes through with all its writes, or is refused before
the first one. -/
theorem on_perform [Scalar α] (hg : g.WellFormed) (c : Change α) : (perform c).on g = atomic g (g.respond c) := by
  cases c with
  | createNode name =>
    have h : (createNode name).on g = atomic g (.ok (g.createNode name)) := on_createNode name
    exact on_map_atomic h Answer.newNode
  | destroyNode v => exact on_map_atomic (on_destroyNode hg v) Answer.oldNode
  | connect source dest weight => exact on_map_atomic (on_connect hg source dest weight) Answer.newBranch
  | destroyBranch i => exact on_map_atomic (on_destroyBranch hg i) Answer.oldBranch
  | setWeight i weight => exact on_map_atomic (on_setWeight i weight) Answer.oldWeight
  | rename v name =>
    have h := on_map_atomic (on_rename (g := g) v name) fun _ => (Answer.done : Answer α)
    rw [perform, h, respond]
    cases g.rename v name <;> rfl

end InPlace

end SignalFlow.Graph
