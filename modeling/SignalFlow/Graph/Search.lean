import SignalFlow.Graph.Index
import SignalFlow.Graph.Path

/-!
# Enumeration of loops and forward paths

A search goes depth first over the branches that leave each node, oldest first. It keeps a stack of frames, one for
every node of the walk, each with the branches not tried yet, and flags the nodes that it must not enter: those on the
walk, until the search leaves them, and those blocked for good.

A search ends since `Search.cost` drops at every step (`cost_lt_of_step`): a frame is worth a power of the width of the
graph whose exponent is the number of nodes off the walk, so one branch of an outer frame outweighs a new inner frame.
-/

namespace SignalFlow

namespace Search

/-- **A node of the walk** with the branches leaving it that are not tried yet. -/
structure Frame where
  node : NodeId
  untried : List BranchId

end Search

/-- **The state of a search.** -/
structure Search where
  index : Index
  /-- Whether the node of a number is on the walk. -/
  onWalk : Array Bool
  /-- Whether the node of a number is excluded from the search. -/
  blocked : Array Bool
  /-- The nodes of the walk, the last one first. -/
  frames : List Search.Frame := []
  /-- The branches of the walk, the last one first. -/
  walk : List BranchId := []
  /-- The walks that reached the target. -/
  found : Array Path := #[]

/-- The largest number of branches that leave one node. -/
def Graph.width {α : Type} (g : Graph α) : Nat := (g.liveNodes.map fun n => n.outgoing.length).foldr max 0

namespace Search

variable {α : Type}

/-- A search of a graph in which every node is free. -/
def ofGraph (g : Graph α) : Search :=
  let index := Index.ofGraph g
  { index, onWalk := Array.replicate index.size false, blocked := Array.replicate index.size false }

/-- Whether the node of a number may be entered. -/
def isFree (s : Search) (n : Nat) : Bool := s.blocked[n]? = some false && s.onWalk[n]? = some false

/-- Puts the node of a number on the walk, or takes it off. -/
def setOnWalk (s : Search) (n : Nat) (on : Bool) : Search := { s with onWalk := s.onWalk.setIfInBounds n on }

/-- Excludes the node of a number from the search. -/
def block (s : Search) (n : Nat) : Search := { s with blocked := s.blocked.setIfInBounds n true }

/-- Puts a frame for a node on the stack. -/
def enter (s : Search) (g : Graph α) (i : NodeId) : Search := { s with frames := ⟨i, g.outgoing i⟩ :: s.frames }

/-- Tries a branch at the last node of the walk: the search passes it by if it leads to a node that is not free, records
the walk if it leads to the target, and enters the node otherwise. -/
def follow (g : Graph α) (target : NodeId) (i : BranchId) (s : Search) : Except GraphError Search := do
  let b ← g.branch i
  let n ← s.index.position b.dest
  if !s.isFree n then return s
  if b.dest = target then return { s with found := s.found.push ⟨(i :: s.walk).reverse⟩ }
  return ({ s with walk := i :: s.walk }.setOnWalk n true).enter g b.dest

/-- Leaves the last node of the walk. -/
def leave (node : NodeId) (s : Search) : Except GraphError Search := do
  let n ← s.index.position node
  return { s with walk := s.walk.tail }.setOnWalk n false

/-- **One step**: tries the next branch at the last node of the walk, or leaves that node. The search does not flag the
node that it starts from, and leaves it last. -/
def step (g : Graph α) (target : NodeId) (s : Search) : Except GraphError Search :=
  match s.frames with
  | [] => .ok s
  | ⟨node, i :: untried⟩ :: outer => { s with frames := ⟨node, untried⟩ :: outer }.follow g target i
  | [⟨_, []⟩] => .ok { s with frames := [] }
  | ⟨node, []⟩ :: outer => { s with frames := outer }.leave node

/-! ## The end of a search -/

/-- The number of nodes that are off the walk. -/
def offWalk (s : Search) : Nat := s.onWalk.count false

/-- The worth of a stack of frames while a number of nodes is off the walk. -/
def worth (width : Nat) : List Frame → Nat → Nat
  | [], _ => 0
  | f :: outer, n => (f.untried.length + 1) * Nat.pow (width + 2) n + worth width outer (n + 1)

/-- **A bound on the number of steps** that are left. -/
def cost (g : Graph α) (s : Search) : Nat := worth g.width s.frames s.offWalk

theorem worth_mono (width : Nat) (fs : List Frame) {m n : Nat} (h : m ≤ n) : worth width fs m ≤ worth width fs n := by
  induction fs generalizing m n with
  | nil => exact Nat.le_refl 0
  | cons f outer ih =>
    exact Nat.add_le_add (Nat.mul_le_mul_left _ (Nat.pow_le_pow_right (by omega) h)) (ih (by omega))

/-- A frame is worth something, whatever it has left to try. -/
theorem worth_lt_cons (width : Nat) (f : Frame) (outer : List Frame) (n : Nat) :
    worth width outer (n + 1) < worth width (f :: outer) n :=
  Nat.lt_add_of_pos_left (Nat.mul_pos (Nat.succ_pos _) (Nat.pow_pos (Nat.succ_pos _)))

/-- A branch is worth something. -/
theorem worth_tried_lt (width : Nat) (node : NodeId) (i : BranchId) (untried : List BranchId) (outer : List Frame)
    (n : Nat) : worth width (⟨node, untried⟩ :: outer) n < worth width (⟨node, i :: untried⟩ :: outer) n :=
  Nat.add_lt_add_right (Nat.mul_lt_mul_of_pos_right (Nat.lt_succ_self _) (Nat.pow_pos (Nat.succ_pos _))) _

/-- A branch is worth more than the frame of the node that it enters, since that node is off the walk no longer. -/
theorem worth_enter_lt {width : Nat} {inner : Frame} (h : inner.untried.length ≤ width) (node : NodeId) (i : BranchId)
    (untried : List BranchId) (outer : List Frame) (n : Nat) :
    worth width (inner :: ⟨node, untried⟩ :: outer) n < worth width (⟨node, i :: untried⟩ :: outer) (n + 1) := by
  have hinner : (inner.untried.length + 1) * Nat.pow (width + 2) n < Nat.pow (width + 2) (n + 1) := by
    rw [show Nat.pow (width + 2) (n + 1) = (width + 2) * Nat.pow (width + 2) n from Nat.mul_comm _ _]
    exact Nat.mul_lt_mul_of_pos_right (by omega) (Nat.pow_pos (Nat.succ_pos _))
  have houter : (untried.length + 1 + 1) * Nat.pow (width + 2) (n + 1)
      = (untried.length + 1) * Nat.pow (width + 2) (n + 1) + Nat.pow (width + 2) (n + 1) := Nat.succ_mul _ _
  simp only [worth, List.length_cons, houter]
  omega

/-- A node has at most as many branches as the graph is wide. -/
theorem length_outgoing_le (g : Graph α) (i : NodeId) : (g.outgoing i).length ≤ g.width := by
  unfold Graph.outgoing
  cases h : g.node? i with
  | none => exact Nat.zero_le _
  | some n =>
    have hplace := Array.mem_of_getElem? (Option.join_eq_some_iff.mp h)
    have hn : n ∈ g.liveNodes := List.mem_filterMap.mpr ⟨some n, Array.mem_toList_iff.mpr hplace, rfl⟩
    unfold Graph.width
    generalize g.liveNodes = ns at hn
    induction ns with
    | nil => cases hn
    | cons m ms ih =>
      rcases List.mem_cons.mp hn with rfl | hn
      · exact Nat.le_max_left _ _
      · exact Nat.le_trans (ih hn) (Nat.le_max_right _ _)

theorem offWalk_setOnWalk_le (s : Search) (n : Nat) (on : Bool) : (s.setOnWalk n on).offWalk ≤ s.offWalk + 1 := by
  unfold offWalk setOnWalk Array.setIfInBounds
  split
  · rw [Array.count_set]
    split <;> split <;> omega
  · exact Nat.le_succ _

theorem isFree_iff {s : Search} {n : Nat} :
    s.isFree n = true ↔ s.blocked[n]? = some false ∧ s.onWalk[n]? = some false := by
  simp [isFree]

/-- Entering a node leaves one less off the walk. -/
theorem offWalk_setOnWalk_true {s : Search} {n : Nat} (h : s.isFree n = true) :
    (s.setOnWalk n true).offWalk + 1 = s.offWalk := by
  obtain ⟨hn, hoff⟩ := Array.getElem?_eq_some_iff.mp (isFree_iff.mp h).2
  have hpos : 0 < s.onWalk.count false := Array.count_pos_iff.mpr (hoff ▸ Array.getElem_mem hn)
  unfold offWalk setOnWalk
  rw [Array.setIfInBounds, dif_pos hn, Array.count_set hn, hoff, if_pos (beq_self_eq_true _), if_neg (by decide)]
  omega

theorem follow_of_not_free {g : Graph α} {target : NodeId} {i : BranchId} {s : Search} {b : Graph.Branch α} {n : Nat}
    (hb : g.branch i = .ok b) (hn : s.index.position b.dest = .ok n) (hfree : s.isFree n = false) :
    s.follow g target i = .ok s := by
  simp [follow, hb, hn, hfree, bind, Except.bind, pure, Except.pure]

theorem follow_of_target {g : Graph α} {target : NodeId} {i : BranchId} {s : Search} {b : Graph.Branch α} {n : Nat}
    (hb : g.branch i = .ok b) (hn : s.index.position b.dest = .ok n) (hfree : s.isFree n = true)
    (htarget : b.dest = target) :
    s.follow g target i = .ok { s with found := s.found.push ⟨(i :: s.walk).reverse⟩ } := by
  subst htarget
  simp [follow, hb, hn, hfree, bind, Except.bind, pure, Except.pure]

theorem follow_of_free {g : Graph α} {target : NodeId} {i : BranchId} {s : Search} {b : Graph.Branch α} {n : Nat}
    (hb : g.branch i = .ok b) (hn : s.index.position b.dest = .ok n) (hfree : s.isFree n = true)
    (htarget : b.dest ≠ target) :
    s.follow g target i = .ok (({ s with walk := i :: s.walk }.setOnWalk n true).enter g b.dest) := by
  simp [follow, hb, hn, hfree, htarget, bind, Except.bind, pure, Except.pure]

/-- A branch that is tried leaves frames and flags as they are, or puts a frame on top and a node on the walk. -/
theorem follow_cases {g : Graph α} {target : NodeId} {i : BranchId} {s s' : Search} (h : s.follow g target i = .ok s') :
    (s'.frames = s.frames ∧ s'.offWalk = s.offWalk) ∨
      ∃ dest, s'.frames = ⟨dest, g.outgoing dest⟩ :: s.frames ∧ s'.offWalk + 1 = s.offWalk := by
  cases hb : g.branch i with
  | error e => simp [follow, hb, bind, Except.bind] at h
  | ok b =>
    cases hn : s.index.position b.dest with
    | error e => simp [follow, hb, hn, bind, Except.bind] at h
    | ok n =>
      cases hfree : s.isFree n with
      | false =>
        rw [follow_of_not_free hb hn hfree] at h
        cases h
        exact .inl ⟨rfl, rfl⟩
      | true =>
        by_cases htarget : b.dest = target
        · rw [follow_of_target hb hn hfree htarget] at h
          cases h
          exact .inl ⟨rfl, rfl⟩
        · rw [follow_of_free hb hn hfree htarget] at h
          cases h
          exact .inr ⟨b.dest, rfl, offWalk_setOnWalk_true hfree⟩

theorem offWalk_of_leave {node : NodeId} {s s' : Search} (h : s.leave node = .ok s') :
    s'.frames = s.frames ∧ s'.offWalk ≤ s.offWalk + 1 := by
  unfold leave at h
  cases hn : s.index.position node with
  | error e => rw [hn] at h; cases h
  | ok n =>
    rw [hn] at h
    cases h
    exact ⟨rfl, offWalk_setOnWalk_le _ _ _⟩

/-- **Every step costs something.** -/
theorem cost_lt_of_step {g : Graph α} {target : NodeId} {s s' : Search} (hframes : s.frames ≠ [])
    (h : s.step g target = .ok s') : s'.cost g < s.cost g := by
  unfold step at h
  unfold cost
  split at h
  case h_1 hnil => exact absurd hnil hframes
  case h_2 node i untried outer htry =>
    rw [htry]
    rcases follow_cases h with ⟨hf, hoff⟩ | ⟨dest, hf, hoff⟩
    · rw [hf, hoff]
      exact worth_tried_lt _ _ _ _ _ _
    · rw [hf, show s.offWalk = s'.offWalk + 1 from hoff.symm]
      exact worth_enter_lt (length_outgoing_le g dest) _ _ _ _ _
  case h_3 node hlast =>
    cases h
    rw [hlast]
    exact Nat.lt_of_le_of_lt (worth_mono _ _ (Nat.le_succ _)) (worth_lt_cons _ _ _ _)
  case h_4 node outer _ hleave =>
    obtain ⟨hf, hoff⟩ := offWalk_of_leave h
    rw [hleave, hf]
    exact Nat.lt_of_le_of_lt (worth_mono _ _ hoff) (worth_lt_cons _ _ _ _)

/-- **Searches** until no node is left on the walk. -/
def run (g : Graph α) (target : NodeId) (s : Search) : Except GraphError Search :=
  if hframes : s.frames = [] then .ok s
  else
    match h : s.step g target with
    | .ok s' =>
      have := cost_lt_of_step hframes h
      s'.run g target
    | .error e => .error e
termination_by s.cost g

/-- Searches for the loops through each anchor, and blocks it from then on; the first anchor has the number `n`. -/
def runAnchors (g : Graph α) (s : Search) (n : Nat) : List NodeId → Except GraphError Search
  | [] => .ok s
  | anchor :: rest => do
    let s ← (s.enter g anchor).run g anchor
    (s.block n).runAnchors g (n + 1) rest

end Search

namespace Graph

variable {α : Type}

/-- **The elementary loops of a graph**, each once, from its node that was created first. -/
def loops (g : Graph α) : Except GraphError (List Path) := do
  let s := Search.ofGraph g
  return (← s.runAnchors g 0 s.index.ids.toList).found.toList

/-- **The forward paths between two nodes**: walks that enter no node twice. A node has no forward path to itself. -/
def forwardPaths (g : Graph α) (input output : NodeId) : Except GraphError (List Path) := do
  let _ ← g.node input
  let _ ← g.node output
  if input = output then return []
  let s := Search.ofGraph g
  let n ← s.index.position input
  return (← ((s.setOnWalk n true).enter g input).run g output).found.toList

end Graph

end SignalFlow
