import SignalFlow.Proofs.Rewrite.Cost
import SignalFlow.Proofs.Rewrite.Rules

/-!
# Turns make chains lean

How far the chains of a tree go on in right operands is the number `skew`: each operator adds what is left of its chain
in its right operand. A turn lowers it and keeps everything else that is counted, the sums, the cost in every role and
the lengths of the chains (`leaner_turn`). So do the turns at a node and the sweeps through a tree, each by the number
of its turns (`leaner_sweepUntil`).
-/

namespace SignalFlow

variable {α : Type}

namespace Tree

/-- **The length of the chain of an operator** at the root of a tree. -/
def chain (op : BinaryOp) : Term α → Nat
  | .binary _ o a b => if o.sameFamily op then 1 + chain op a + chain op b else 0
  | _ => 0

mutual

/-- **How far chains go on in right operands.** -/
def skew : Term α → Nat
  | .literal _ _ | .var _ _ | .infinity _ => 0
  | .negate _ t => skew t
  | .binary _ op a b => chain op b + skew a + skew b
  | .list _ items => skewAll items

def skewAll : List (Term α) → Nat
  | [] => 0
  | t :: ts => skew t + skewAll ts

end

theorem sameFamily_congr {o p : BinaryOp} (h : o.sameFamily p = true) (q : BinaryOp) :
    q.sameFamily o = q.sameFamily p := by
  cases o <;> cases p <;> first | rfl | cases h

/-- Operators of one family have the same chains. -/
theorem chain_congr {o p : BinaryOp} (h : o.sameFamily p = true) (t : Term α) : chain o t = chain p t := by
  induction t using childInduction with
  | h t ih =>
    cases t with
    | binary l op a b =>
      rw [chain, chain, sameFamily_congr h, ih a List.mem_cons_self,
        ih b (List.mem_cons_of_mem _ (List.mem_singleton_self b))]
    | _ => rfl

@[simp] theorem chain_sub (t : Term α) : chain .sub t = chain .add t := chain_congr rfl t

@[simp] theorem chain_div (t : Term α) : chain .div t = chain .mul t := chain_congr rfl t

theorem chain_binary {o p : BinaryOp} (h : o.sameFamily p = true) (q : BinaryOp) (l : Unit) (a b : Term α) :
    chain q (.binary l o a b) = if p.sameFamily q then 1 + chain q a + chain q b else 0 := by
  rw [chain, Rewrite.sameFamily_comm, sameFamily_congr h, Rewrite.sameFamily_comm]

/-- A tree that is no part of a chain has none. -/
theorem chain_eq_zero {op : BinaryOp} {t : Term α} (h : Rewrite.inChain op t = false) : chain op t = 0 := by
  cases t with
  | binary l o a b =>
    have ho : o.sameFamily op = false := h
    rw [chain, ho]
    rfl
  | _ => rfl

end Tree

namespace Rewrite

open SignalFlow.Tree

variable {u t w a b a' b' : Term α} {m n : Nat}

/-- **A tree is leaner than another** by a number of turns: they have the same size, sums,
costs and chains, and its skew is lower by them. -/
structure Leaner (n : Nat) (u t : Term α) : Prop where
  size : u.size = t.size
  sums : u.sums = t.sums
  cost (p : Role) : u.cost p = t.cost p
  chain (op : BinaryOp) : u.chain op = t.chain op
  literal : u.literal?.isSome = t.literal?.isSome
  skew : u.skew + n ≤ t.skew

namespace Leaner

theorem refl (t : Term α) : Leaner 0 t t := ⟨rfl, rfl, fun _ => rfl, fun _ => rfl, rfl, Nat.le_refl _⟩

theorem trans (hu : Leaner m u t) (ht : Leaner n t w) : Leaner (m + n) u w where
  size := hu.size.trans ht.size
  sums := hu.sums.trans ht.sums
  cost p := (hu.cost p).trans (ht.cost p)
  chain op := (hu.chain op).trans (ht.chain op)
  literal := hu.literal.trans ht.literal
  skew := by
    have hut := hu.skew
    have htw := ht.skew
    omega

theorem negate (h : Leaner n u t) : Leaner n (.negate () u) (.negate () t) where
  size := congrArg (· + 1) h.size
  sums := h.sums
  cost p := congrArg (p.step + ·) (h.cost p)
  chain _ := rfl
  literal := rfl
  skew := h.skew

/-- **Operands that are leaner make a node leaner.** -/
theorem binary (op : BinaryOp) (ha : Leaner m a' a) (hb : Leaner n b' b) :
    Leaner (m + n) (.binary () op a' b') (.binary () op a b) where
  size := by rw [Tree.size, Tree.size, ha.size, hb.size]
  sums := by rw [Tree.sums, Tree.sums, ha.sums, hb.sums]
  cost p := by simp only [Tree.cost, ha.cost, hb.cost, hb.literal]
  chain o := by rw [Tree.chain, Tree.chain, ha.chain, hb.chain]
  literal := rfl
  skew := by
    have hskewa := ha.skew
    have hskewb := hb.skew
    have hchain := hb.chain op
    simp only [Tree.skew]
    omega

/-- Items that are leaner make a list leaner. -/
theorem cons {us ts : List (Term α)} (h : Leaner m u t) (hs : Leaner n (.list () us) (.list () ts)) :
    Leaner (m + n) (.list () (u :: us)) (.list () (t :: ts)) where
  size := by
    have hsize := hs.size
    simp only [Tree.size, sizeAll] at hsize ⊢
    rw [h.size]
    omega
  sums := by
    have hsums := hs.sums
    simp only [Tree.sums, sumsAll] at hsums ⊢
    rw [h.sums, hsums]
  cost p := by
    have hcost := hs.cost p
    have hapart := h.cost .apart
    simp only [Tree.cost, costAll] at hcost ⊢
    omega
  chain _ := rfl
  literal := rfl
  skew := by
    have hskew := h.skew
    have hskews := hs.skew
    simp only [Tree.skew, skewAll] at hskews ⊢
    omega

end Leaner

/-! ## Turns -/

/-- **A turn of a sum makes it leaner.** -/
theorem leaner_turn_sum {outer inner : BinaryOp} {inChain : Bool} {a b c : Term α} {t : Turn}
    (houter : outer.isAdditive = true) (ha : inChain = false → a.chain outer = 0)
    (h : turn? outer inner inChain = some t) :
    Leaner 1 (t.tree () () a b c) (.binary () outer a (.binary () inner b c)) := by
  match outer, inner, inChain, h with
  | .add, .add, false, rfl | .add, .add, true, rfl | .sub, .sub, false, rfl | .sub, .sub, true, rfl
  | .add, .sub, false, rfl | .add, .sub, true, rfl | .sub, .add, false, rfl | .sub, .add, true, rfl =>
    simp only [Bool.true_eq_false, false_imp_iff, true_imp_iff, chain_sub] at ha
    refine ⟨?_, ?_, fun p => ?_, fun op => ?_, rfl, ?_⟩
    · simp only [Turn.tree, size]
      omega
    · simp only [Turn.tree, sums, BinaryOp.isAdditive]
      omega
    · simp only [Turn.tree, cost]
      omega
    · have hadd := chain_binary (α := α) (o := .add) (p := .add) rfl op
      have hsub := chain_binary (α := α) (o := .sub) (p := .add) rfl op
      simp only [Turn.tree, hadd, hsub]
      split_ifs <;> omega
    · simp [Turn.tree, skew, chain, BinaryOp.sameFamily, BinaryOp.isAdditive]
      omega

/-- **A turn of a product makes it leaner.** -/
theorem leaner_turn_product {outer inner : BinaryOp} {inChain : Bool} {a b c : Term α} {t : Turn}
    (houter : outer.isMultiplicative = true) (ha : inChain = false → a.chain outer = 0)
    (h : turn? outer inner inChain = some t) :
    Leaner 1 (t.tree () () a b c) (.binary () outer a (.binary () inner b c)) := by
  match outer, inner, inChain, h with
  | .mul, .mul, false, rfl | .mul, .mul, true, rfl | .mul, .div, false, rfl | .mul, .div, true, rfl
  | .div, .mul, false, rfl | .div, .mul, true, rfl | .div, .div, false, rfl | .div, .div, true, rfl =>
    simp only [Bool.true_eq_false, false_imp_iff, true_imp_iff, chain_div] at ha
    refine ⟨?_, ?_, fun p => ?_, fun op => ?_, rfl, ?_⟩
    · simp only [Turn.tree, size]
      omega
    · simp only [Turn.tree, sums, BinaryOp.isAdditive, Bool.false_eq_true, if_false]
      omega
    · cases p <;> simp only [Turn.tree, cost, Role.flip, Role.step] <;> omega
    · have hmul := chain_binary (α := α) (o := .mul) (p := .mul) rfl op
      have hdiv := chain_binary (α := α) (o := .div) (p := .mul) rfl op
      simp only [Turn.tree, hmul, hdiv]
      split_ifs <;> omega
    · simp [Turn.tree, skew, chain, BinaryOp.sameFamily, BinaryOp.isMultiplicative]
      omega

/-- **A turn makes a tree leaner.** -/
theorem leaner_turn {outer inner : BinaryOp} {a b c : Term α} {t : Turn}
    (h : turn? outer inner (inChain outer a) = some t) :
    Leaner 1 (t.tree () () a b c) (.binary () outer a (.binary () inner b c)) := by
  rcases isAdditive_or_isMultiplicative_of_turn? h with houter | houter
  · exact leaner_turn_sum houter chain_eq_zero h
  · exact leaner_turn_product houter chain_eq_zero h

/-- **The turns at a node** make it leaner, each of them. -/
theorem leaner_turnAll (outer : BinaryOp) (a r : Term α) :
    Leaner (turnAll outer a r).turns
      (.binary () (turnAll outer a r).op (turnAll outer a r).left (turnAll outer a r).right)
      (.binary () outer a r) := by
  fun_induction turnAll outer a r with
  | case1 outer a l inner b c o i h r ih | case2 outer a l inner b c o i h r ih => exact ih.trans (leaner_turn h)
  | case3 outer a l inner b c o i h | case4 outer a l inner b c o i h => exact leaner_turn h
  | _ => exact .refl _

/-- Sweeps make trees leaner, by their turns. -/
theorem leaner_sweeps :
    (∀ t : Term α, Leaner (sweep t).2 (sweep t).1 t) ∧
      ∀ ts : List (Term α), Leaner (sweepAll ts).2 (.list () (sweepAll ts).1) (.list () ts) := by
  apply sweep.mutual_induct
  case case1 | case2 | case3 =>
    intros
    rw [sweep]
    exact .refl _
  case case4 =>
    intro l t u n _ ih
    rw [sweep_negate]
    exact ih.negate
  case case5 =>
    intro l op a b r _ u m _ w n _ ihl ihr
    rw [sweep_binary]
    have h := (Leaner.binary r.op ihl ihr).trans (leaner_turnAll op a b)
    rwa [Nat.add_comm, ← Nat.add_assoc] at h
  case case6 =>
    intro l items us n _ ih
    rw [sweep_list]
    exact ih
  case case7 =>
    rw [sweepAll]
    exact .refl _
  case case8 =>
    intro t ts u m _ us n _ iht ihts
    rw [sweepAll_cons]
    exact .cons iht ihts

/-- **Sweeps make a tree leaner, each of their turns.** -/
theorem leaner_sweepUntil (fuel : Nat) (t : Term α) :
    Leaner (sweepUntil fuel t 0).2 (sweepUntil fuel t 0).1 t := by
  suffices hfrom : ∀ n, ∃ k, (sweepUntil fuel t n).2 = n + k ∧ Leaner k (sweepUntil fuel t n).1 t by
    obtain ⟨k, hcount, hleaner⟩ := hfrom 0
    rwa [hcount, Nat.zero_add]
  induction fuel generalizing t with
  | zero => exact fun n => ⟨0, rfl, .refl t⟩
  | succ fuel ih =>
    intro n
    have hsweep := leaner_sweeps.1 t
    rw [sweepUntil]
    split
    · next u hu =>
      rw [hu] at hsweep
      exact ⟨0, rfl, hsweep⟩
    · next u m hu =>
      rw [hu] at hsweep
      obtain ⟨k, hcount, hleaner⟩ := ih u (n + (m + 1))
      exact ⟨k + (m + 1), by omega, hleaner.trans hsweep⟩

end Rewrite

end SignalFlow
