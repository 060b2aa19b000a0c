import SignalFlow.Proofs.Arena.Faithful
import SignalFlow.Proofs.Rewrite.LeftLeaning

/-!
# Normalization of an arena

The loop at a node has no bound of its own: it turns until there is no turn (`Loops`). On an orderly arena each loop of
the first sweep ends, the second sweep makes no turn, and no operator is left that goes on with its chain in its right
operand (`Arena.Orderly.normalizes`). The nodes are visited in the order that they had before the first turn, whatever
the turns do to it.
-/

namespace SignalFlow

open SignalFlow.Tree

variable {α : Type}

namespace Arena

variable {a b c : Arena α} {i : Id} {m n : Nat}

/-! ## Loops -/

/-- **The loop at a node**, which turns as long as there is a turn and ends after a number of turns. -/
inductive Loops (i : Id) : Arena α → Nat → Arena α → Prop where
  | stop {a b : Arena α} (hrotate : (rotate i).on a = .ok (.ok false, b)) : Loops i a 0 b
  | turn {a b c : Arena α} {n : Nat} (hrotate : (rotate i).on a = .ok (.ok true, b)) (hrest : Loops i b n c) :
      Loops i a (n + 1) c

/-- **The loops at several nodes**, one after the other. -/
inductive LoopsEach : List Id → Arena α → Nat → Arena α → Prop where
  | nil {a : Arena α} : LoopsEach [] a 0 a
  | cons {a b c : Arena α} {i : Id} {rest : List Id} {m n : Nat} (hfirst : Loops i a m b)
      (hrest : LoopsEach rest b n c) : LoopsEach (i :: rest) a (m + n) c

/-- Of two steps that are answered the first is answered as well. -/
theorem exists_of_bind_on {β γ : Type} {x : Step α β} {f : β → Step α γ} {r : γ}
    (h : (x >>= f).on a = .ok (.ok r, c)) : ∃ s b, x.on a = .ok (.ok s, b) ∧ (f s).on b = .ok (.ok r, c) := by
  rw [Does.on_bind] at h
  cases hx : x.on a with
  | error p =>
    rw [hx] at h
    cases h
  | ok result =>
    obtain ⟨s | s, b⟩ := result
    · rw [hx] at h
      cases h
    · rw [hx] at h
      exact ⟨s, b, rfl, h⟩

/-- **A loop that is not given up has ended.** -/
theorem loops_of_rotateAll {fuel : Nat} (h : (rotateAll i fuel n).on a = .ok (.ok m, b)) :
    ∃ k, m = n + k ∧ Loops i a k b := by
  induction fuel generalizing a n with
  | zero => cases h
  | succ fuel ih =>
    obtain ⟨rotated, a', hrotate, h⟩ := exists_of_bind_on h
    cases rotated with
    | false =>
      cases h
      exact ⟨0, rfl, .stop hrotate⟩
    | true =>
      obtain ⟨k, rfl, hloops⟩ := ih h
      exact ⟨k + 1, Nat.add_right_comm n 1 k, .turn hrotate hloops⟩

theorem loopsEach_of_rotateEach {order : List Id} (h : (rotateEach order n).on a = .ok (.ok m, b)) :
    ∃ k, m = n + k ∧ LoopsEach order a k b := by
  induction order generalizing a n with
  | nil =>
    cases h
    exact ⟨0, rfl, .nil⟩
  | cons i rest ih =>
    obtain ⟨fuel, a', hlook, h⟩ := exists_of_bind_on h
    cases hlook
    obtain ⟨n', a', hrotate, h⟩ := exists_of_bind_on h
    obtain ⟨k, rfl, hfirst⟩ := loops_of_rotateAll hrotate
    obtain ⟨k', rfl, hrest⟩ := ih h
    exact ⟨k + k', Nat.add_assoc n k k', .cons hfirst hrest⟩

/-- **The loops of a sweep** are those at the nodes below the root, as they were listed before the first turn. -/
theorem loopsEach_of_sweep (h : Arena.sweep.on a = .ok (.ok n, b)) :
    ∃ order, a.preorderFrom a.root = .ok order ∧ LoopsEach order a n b := by
  obtain ⟨order, a', hlook, h⟩ := exists_of_bind_on h
  change (a.preorderFrom a.root).map (fun order => (Except.ok order, a)) = _ at hlook
  cases horder : a.preorderFrom a.root with
  | error p =>
    rw [horder] at hlook
    cases hlook
  | ok order' =>
    rw [horder] at hlook
    cases hlook
    obtain ⟨k, rfl, hloops⟩ := loopsEach_of_rotateEach h
    rw [Nat.zero_add]
    exact ⟨order, rfl, hloops⟩

/-! ## The result -/

/-- **Every chain that is reached goes on in left operands only.** -/
def LeansLeft (a : Arena α) : Prop :=
  ∀ i op j k inner x y, a.Below a.root i → a.node? i = some (.binary op j k) → a.node? k = some (.binary inner x y) →
    op.sameFamily inner = false

/-- **Normalization takes one sweep.** -/
structure NormalizesTo (a : Arena α) (n : Nat) (b : Arena α) : Prop where
  /-- Every loop ends. -/
  loops : ∃ order, a.preorderFrom a.root = .ok order ∧ LoopsEach order a n b
  first : Arena.sweep.on a = .ok (.ok n, b)
  second : Arena.sweep.on b = .ok (.ok 0, b)
  /-- The bound on the number of sweeps never matters. -/
  bound : ∀ k, (Arena.sweepUntil (k + 1) 0).on a = .ok (.ok n, b)
  result : Arena.normalizeChains.on a = .ok (.ok n, b)
  leansLeft : b.LeansLeft
  again : Arena.normalizeChains.on b = .ok (.ok 0, b)

end Arena

namespace Expr

open Arena

variable {e : Expr α}

theorem leansLeft_arena (he : e.Whole) (h : Rewrite.LeansLeft e.tree) : e.arena.LeansLeft := by
  intro i op j k inner x y hi hnode hright
  obtain ⟨u, hu, rfl⟩ := List.mem_map.mp ((below_arena he (node?_root he)).mp hi)
  have hshape : ∀ w ∈ e.tree.preorder, e.arena.node? w.label = some w.shape := fun w hw =>
    (shows_arena he).node_tree (sits_of_node? he (node?_of_mem_preorder he (node?_root he) hw))
  cases u with
  | binary l op' t s =>
    have hs : s ∈ e.tree.preorder :=
      mem_preorder_trans hu
        (mem_preorder_of_mem_children (List.mem_cons_of_mem _ List.mem_cons_self) s.self_mem_preorder)
    cases (hshape _ hu).symm.trans hnode
    have hchain : Rewrite.inChain op s = false := h _ hu l op t s rfl
    cases s with
    | binary k' inner' x' y' =>
      cases (hshape _ hs).symm.trans hright
      exact (Rewrite.sameFamily_comm op inner).trans hchain
    | _ => cases (hshape _ hs).symm.trans hright
  | _ => cases (hshape _ hu).symm.trans hnode

theorem sweep_refines (e : Expr α) :
    Refines Arena.sweep e (.ok (e.normalizeChains.2, e.normalizeChains.1)) := by
  have hsweep := sweep_does (s := e.slots) (t := e.tree) e.detached
  rw [← e.layout_with, ← e.layout_with] at hsweep
  rwa [normalizeChains_eq]

theorem sweepUntil_refines (e : Expr α) (k : Nat) :
    Refines (Arena.sweepUntil (k + 1) 0) e (.ok (e.normalizeChains.2, e.normalizeChains.1)) := by
  have hsweeps := sweepUntil_does (s := e.slots) (t := e.tree) (n := 0) e.detached (k + 1)
  rw [Rewrite.sweepUntil_eq, Nat.zero_add, ← e.layout_with, ← e.layout_with] at hsweeps
  rwa [normalizeChains_eq]

/-- **On the arena of a whole expression normalization takes one sweep.** -/
theorem normalizes_arena (he : e.Whole) :
    e.arena.NormalizesTo e.normalizeChains.2 e.normalizeChains.1.arena := by
  have hbound : ∀ k, (Arena.sweepUntil (k + 1) 0).on e.arena =
      .ok (.ok e.normalizeChains.2, e.normalizeChains.1.arena) := fun k => ((sweepUntil_refines e k).on he).1
  obtain ⟨hfirst, hwhole⟩ := (sweep_refines e).on he
  have hsecond := ((sweep_refines e.normalizeChains.1).on hwhole).1
  have hagain := ((sweepUntil_refines e.normalizeChains.1 255).on hwhole).1
  rw [normalizeChains_twice] at hsecond hagain
  refine ⟨loopsEach_of_sweep hfirst, hfirst, hsecond, hbound, hbound 255, leansLeft_arena hwhole ?_, hagain⟩
  rw [normalizeChains_eq]
  exact Rewrite.leansLeft_sweep e.tree

end Expr

namespace Arena

variable {a : Arena α}

/-- **On an orderly arena normalization takes one sweep.** -/
theorem Orderly.normalizes (ha : a.Orderly) : ∃ n b, a.NormalizesTo n b := by
  obtain ⟨e, he, rfl⟩ := ha.exists_whole
  exact ⟨_, _, Expr.normalizes_arena he⟩

/-- `x - (y + (z - x))` becomes `x - y - z + x`. -/
theorem normalizes_difference :
    let t : Term Double := .binary () .sub (.var () "x") (.binary () .add (.var () "y")
      (.binary () .sub (.var () "z") (.var () "x")))
    let a : Arena Double := (Expr.ofTree t).arena
    a.Orderly ∧ ∃ n b, a.NormalizesTo n b := by
  intro t a
  have ha : a.Orderly := Expr.orderly_arena (Expr.whole_ofTerm t)
  exact ⟨ha, ha.normalizes⟩

end Arena

end SignalFlow
