import SignalFlow.Proofs.Arena.Chains

/-!
# One sweep is enough

After a sweep no operator goes on with its chain in a right operand (`leansLeft_sweep`), and where none does, a sweep
makes no turn (`sweep_of_leansLeft`). So the second sweep finds nothing to do, and the bound on the number of sweeps
never matters (`sweepUntil_eq`).

The turns at a node end with a right operand outside of the chain, for two reasons: there is no turn left, or a left
operand that was no part of the chain has become the right one. The sweep of the right operand keeps that up, since
turns inside of a tree do not change whether it belongs to a chain.
-/

namespace SignalFlow.Rewrite

open SignalFlow.Tree

variable {ι α : Type}

/-! ## Chains in left operands -/

/-- **A tree in which every chain goes on in left operands only.** -/
def LeansLeft (t : Tree ι α) : Prop :=
  t.Everywhere fun u => ∀ l op a b, u = .binary l op a b → inChain op b = false

theorem leansLeft_binary {l : ι} {op : BinaryOp} {a b : Tree ι α} :
    LeansLeft (.binary l op a b) ↔ inChain op b = false ∧ LeansLeft a ∧ LeansLeft b := by
  rw [LeansLeft, everywhere_binary]
  refine and_congr_left fun _ => ⟨fun h => h l op a b rfl, fun h => ?_⟩
  rintro _ _ _ _ ⟨⟩
  exact h

theorem leansLeft_negate {l : ι} {t : Tree ι α} : LeansLeft (.negate l t) ↔ LeansLeft t := by
  rw [LeansLeft, everywhere_negate]
  exact and_iff_right fun _ _ _ _ => nofun

theorem leansLeft_list {l : ι} {ts : List (Tree ι α)} : LeansLeft (.list l ts) ↔ ∀ t ∈ ts, LeansLeft t := by
  rw [LeansLeft, everywhere_list]
  exact and_iff_right fun _ _ _ _ => nofun

/-- Operators of one chain have the same chain. -/
theorem inChain_congr {o p : BinaryOp} (h : ∀ q : BinaryOp, q.sameFamily o = q.sameFamily p) (t : Tree ι α) :
    inChain o t = inChain p t := by
  rw [inChain, inChain]
  cases t.op? with
  | none => rfl
  | some q => exact h q

/-- There is a turn as long as the chain goes on in the right operand. -/
theorem sameFamily_of_turn?_eq_none {outer inner : BinaryOp} {b : Bool} (h : turn? outer inner b = none) :
    inner.sameFamily outer = false := by
  cases outer <;> cases inner <;> cases b <;> first | rfl | cases h

/-- **After the turns at a node** its right operand is outside of the chain. -/
theorem inChain_right_turnAll (outer : BinaryOp) (a b : Tree ι α) :
    inChain (turnAll outer a b).op (turnAll outer a b).right = false := by
  fun_induction turnAll outer a b with
  | case1 outer a l inner b c o i h r ih => exact ih
  | case2 outer a l inner b c o i h r ih => exact ih
  | case3 outer a l inner b c o i h =>
    exact (inChain_congr (sameFamily_turn h) a).trans (turn?_exchange (.inl h))
  | case4 outer a l inner b c o i h =>
    exact (inChain_congr (sameFamily_turn h) a).trans (turn?_exchange (.inr h))
  | case5 outer a l inner b c h => exact sameFamily_of_turn?_eq_none h
  | _ => rfl

/-- A right operand outside of the chain allows no turn. -/
theorem turnAll_of_inChain_eq_false {outer : BinaryOp} (a : Tree ι α) {b : Tree ι α} (h : inChain outer b = false) :
    turnAll outer a b = ⟨outer, a, b, 0⟩ := by
  cases b with
  | binary l inner b c => rw [turnAll, turn?_eq_none h]
  | _ => rfl

/-- A sweep inside of a tree does not change whether it belongs to a chain. -/
theorem inChain_sweep (op : BinaryOp) (t : Tree ι α) : inChain op (sweep t).1 = inChain op t := by
  cases t with
  | binary l inner a b =>
    rw [sweep]
    change (turnAll inner a b).op.sameFamily op = inner.sameFamily op
    rw [sameFamily_comm, sameFamily_turnAll, sameFamily_comm]
  | literal | var | infinity => rw [sweep]
  | negate | list =>
    rw [sweep]
    rfl

/-! ## Sweeps -/

/-- **After a sweep** every chain goes on in left operands only. -/
theorem leansLeft_sweep (t : Tree ι α) : LeansLeft (sweep t).1 := by
  refine sweep.induct (fun t => LeansLeft (sweep t).1) (fun ts => ∀ u ∈ (sweepAll ts).1, LeansLeft u) ?literal ?var
    ?infinity ?negate ?binary ?list ?nil ?cons t
  case literal | var | infinity =>
    intros
    rw [sweep]
    simp [LeansLeft]
  case negate =>
    intro l t _ _ _ ih
    rw [sweep]
    exact leansLeft_negate.mpr ih
  case binary =>
    intro l op a b r _ _ _ _ _ _ _ ihleft ihright
    rw [sweep]
    exact leansLeft_binary.mpr ⟨(inChain_sweep r.op r.right).trans (inChain_right_turnAll op a b), ihleft, ihright⟩
  case list =>
    intro l items _ _ _ ih
    rw [sweep]
    exact leansLeft_list.mpr ih
  case nil =>
    rw [sweepAll]
    exact List.forall_mem_nil _
  case cons =>
    intro t ts _ _ _ _ _ _ iht ihts
    rw [sweepAll]
    exact List.forall_mem_cons.mpr ⟨iht, ihts⟩

theorem sweepAll_of_unchanged {ts : List (Tree ι α)} (h : ∀ t ∈ ts, sweep t = (t, 0)) : sweepAll ts = (ts, 0) := by
  induction ts with
  | nil => rw [sweepAll]
  | cons t ts ih =>
    rw [sweepAll, h t List.mem_cons_self, ih fun u hu => h u (List.mem_cons_of_mem _ hu)]

/-- **Where every chain goes on in left operands only**, a sweep makes no turn. -/
theorem sweep_of_leansLeft {t : Tree ι α} (h : LeansLeft t) : sweep t = (t, 0) := by
  induction t using nodeInduction with
  | literal | var | infinity => rw [sweep]
  | negate l t ih => rw [sweep, ih (leansLeft_negate.mp h)]
  | binary l op a b iha ihb =>
    obtain ⟨hb, hleft, hright⟩ := leansLeft_binary.mp h
    rw [sweep, turnAll_of_inChain_eq_false a hb]
    simp only [iha hleft, ihb hright]
  | list l ts ih => rw [sweep, sweepAll_of_unchanged fun t ht => ih t ht (leansLeft_list.mp h t ht)]

/-- **The second sweep makes no turn.** -/
theorem sweep_sweep (t : Tree ι α) : sweep (sweep t).1 = ((sweep t).1, 0) := sweep_of_leansLeft (leansLeft_sweep t)

/-- **All sweeps are the first one**, however many there may be. -/
theorem sweepUntil_eq (fuel : Nat) (t : Tree ι α) (n : Nat) :
    sweepUntil (fuel + 1) t n = ((sweep t).1, n + (sweep t).2) := by
  have hsecond := sweep_sweep t
  rw [sweepUntil]
  cases hsweep : sweep t with
  | mk u m =>
    rw [hsweep] at hsecond
    cases m with
    | zero => rfl
    | succ m =>
      cases fuel with
      | zero => rfl
      | succ fuel => simp only [sweepUntil, hsecond]

end SignalFlow.Rewrite

namespace SignalFlow.Expr

open Rewrite

variable {α : Type}

/-- **Normalization is one sweep.** -/
theorem normalizeChains_eq (e : Expr α) :
    e.normalizeChains = ({ e with tree := (sweep e.tree).1 }, (sweep e.tree).2) := by
  rw [normalizeChains, show maxSweeps = 255 + 1 from rfl, sweepUntil_eq]
  simp only [Nat.zero_add]

/-- **A normalized expression stays as it is.** -/
theorem normalizeChains_twice (e : Expr α) : e.normalizeChains.1.normalizeChains = (e.normalizeChains.1, 0) := by
  simp only [normalizeChains_eq, sweep_sweep]

end SignalFlow.Expr
