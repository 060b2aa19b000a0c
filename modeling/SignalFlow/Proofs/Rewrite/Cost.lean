import Mathlib.Data.List.Forall2
import SignalFlow.Proofs.Rewrite.Graded

/-!
# What a tree costs

The passes may make a tree larger: collecting distributes coefficients over sums and writes divisors as powers. They do
not make it costlier. A tree has a number of sums, and a cost that depends on its role: in a term of a sum coefficients,
signs and products cost nothing, and a divisor costs as much as the power that it becomes. A tree is `NoCostlier` than
another if it has fewer sums, or as many and no higher cost in any role. This is a congruence, so a rule that makes no
root costlier makes no tree costlier (`noCostlier_rewriteUp`). Folding and applying identities are such rules, and where
a tree stands by itself they make it cheaper (`lowers_fold`, `lowers_reduce`).
-/

namespace SignalFlow

variable {α : Type}

/-! ## Sums and cost -/

/-- **What a tree is to the tree around it.** -/
inductive Role where
  /-- Nothing in particular. -/
  | apart
  /-- A factor of a term of a sum. -/
  | factor
  /-- A divisor in a term of a sum. -/
  | divisor

namespace Role

/-- What becomes of the role below a division. -/
def flip : Role → Role
  | .apart => .apart
  | .factor => .divisor
  | .divisor => .factor

/-- What a product or a sign costs. -/
def step : Role → Nat
  | .apart => 1
  | _ => 0

/-- What it costs to divide. -/
def toll : Role → Nat
  | .divisor => 1
  | _ => 0

/-- The role of the left operand of an operator. -/
def left (p : Role) : BinaryOp → Role
  | .add | .sub => .factor
  | .mul | .div => p
  | _ => .apart

/-- The role of the right operand. -/
def right (p : Role) : BinaryOp → Role
  | .add | .sub => .factor
  | .mul => p
  | .div => p.flip
  | _ => .apart

/-- What a literal costs: nothing in a coefficient, and as much as a power when it divides. -/
def literal : Role → Nat
  | .apart => 1
  | .factor => 0
  | .divisor => 2

end Role

namespace Tree

mutual

/-- **The number of sums and differences** in a tree. -/
def sums : Term α → Nat
  | .literal _ _ | .var _ _ | .infinity _ => 0
  | .negate _ t => sums t
  | .binary _ op a b => (if op.isAdditive then 1 else 0) + sums a + sums b
  | .list _ items => sumsAll items

def sumsAll : List (Term α) → Nat
  | [] => 0
  | t :: ts => sums t + sumsAll ts

end

mutual

/-- **The cost of a tree in a role.** -/
def cost : Role → Term α → Nat
  | p, .literal _ _ => p.literal
  | p, .var _ _ | p, .infinity _ => 1 + p.toll
  | p, .negate _ t => p.step + cost p t
  | p, .binary _ op a b =>
    match op with
    | .add | .sub => 1 + p.toll + cost .factor a + cost .factor b
    | .mul => p.step + cost p a + cost p b
    | .div => p.step + cost p a + cost p.flip b
    | .pow => (if b.literal?.isSome then 0 else p.toll) + cost .apart a + cost .apart b
    | .mod | .comma => p.toll + cost .apart a + cost .apart b
  | p, .list _ items => 1 + p.toll + costAll items

def costAll : List (Term α) → Nat
  | [] => 0
  | t :: ts => cost .apart t + costAll ts

end

/-- A tree costs something. -/
theorem cost_pos (t : Term α) : 0 < cost .apart t := by
  induction t using childInduction with
  | h t ih =>
    cases t with
    | literal | var | infinity => exact Nat.one_pos
    | negate | list => simp only [cost, Role.step, Role.toll]; omega
    | binary l op a b =>
      have ha := ih a List.mem_cons_self
      cases op <;> simp only [cost, Role.step, Role.toll] <;> omega

/-- **In a term of a sum a tree costs no more** than by itself, apart from the toll of a divisor. -/
theorem cost_le_apart (t : Term α) : cost .factor t ≤ cost .apart t ∧ cost .divisor t ≤ cost .apart t + 1 := by
  induction t using childInduction with
  | h t ih =>
    cases t with
    | literal | var | infinity => simp [cost, Role.literal, Role.toll]
    | negate l t =>
      have ht := ih t List.mem_cons_self
      simp only [cost, Role.step]
      omega
    | list => simp only [cost, Role.toll]; omega
    | binary l op a b =>
      have ha := ih a List.mem_cons_self
      have hb := ih b (List.mem_cons_of_mem _ (List.mem_singleton_self b))
      cases op with
      | pow => simp only [cost, Role.toll]; split_ifs <;> omega
      | _ => simp only [cost, Role.step, Role.toll, Role.flip]; omega

theorem cost_le (p : Role) (t : Term α) : cost p t ≤ cost .apart t + p.toll := by
  have h := cost_le_apart t
  cases p with
  | apart => exact Nat.le_refl _
  | factor => exact h.1
  | divisor => exact h.2

/-- A factor of a product that is none itself: no literal, no sign and no product. -/
def isAtom : Term α → Bool
  | .literal _ _ | .negate _ _ | .binary _ .mul _ _ | .binary _ .div _ _ => false
  | _ => true

end Tree

namespace Rewrite

open SignalFlow.Tree

/-! ## Comparing trees -/

/-- **A tree is no costlier than another**: it has fewer sums, or as many and costs no more in any role. -/
def NoCostlier (u t : Term α) : Prop :=
  sums u < sums t ∨ sums u = sums t ∧ (∀ p, cost p u ≤ cost p t) ∧ (t.literal?.isSome → u.literal?.isSome)

/-- **A tree is cheaper than another in a role**: it has fewer sums, or as many and costs less. -/
def Cheaper (p : Role) (u t : Term α) : Prop := sums u < sums t ∨ sums u = sums t ∧ cost p u < cost p t

variable {u t w a b a' b' : Term α} {p : Role}

theorem NoCostlier.refl (t : Term α) : NoCostlier t t := .inr ⟨rfl, fun _ => Nat.le_refl _, id⟩

theorem NoCostlier.sums_le (h : NoCostlier u t) : sums u ≤ sums t := by
  rcases h with h | ⟨h, -⟩
  · exact h.le
  · exact h.le

theorem NoCostlier.trans (hu : NoCostlier u t) (ht : NoCostlier t w) : NoCostlier u w := by
  rcases hu with hu | ⟨hsums, hcost, hliteral⟩
  · exact .inl (hu.trans_le ht.sums_le)
  · rcases ht with ht | ⟨hsums', hcost', hliteral'⟩
    · exact .inl (hsums.trans_lt ht)
    · exact .inr ⟨hsums.trans hsums', fun p => (hcost p).trans (hcost' p), hliteral ∘ hliteral'⟩

/-- A tree that is no literal is compared by its numbers. -/
theorem NoCostlier.of_le (ht : t.literal? = none) (hsums : sums u ≤ sums t) (hcost : ∀ p, cost p u ≤ cost p t) :
    NoCostlier u t := by
  rcases hsums.lt_or_eq with h | h
  · exact .inl h
  · exact .inr ⟨h, hcost, fun hsome => by rw [ht] at hsome; cases hsome⟩

theorem NoCostlier.trans_cheaper (hu : NoCostlier u t) (ht : Cheaper p t w) : Cheaper p u w := by
  rcases hu with hu | ⟨hsums, hcost, -⟩
  · rcases ht with ht | ⟨ht, -⟩
    · exact .inl (hu.trans ht)
    · exact .inl (hu.trans_eq ht)
  · rcases ht with ht | ⟨ht, hlt⟩
    · exact .inl (hsums.trans_lt ht)
    · exact .inr ⟨hsums.trans ht, (hcost p).trans_lt hlt⟩

theorem Cheaper.trans_noCostlier (hu : Cheaper p u t) (ht : NoCostlier t w) : Cheaper p u w := by
  rcases ht with ht | ⟨hsums', hcost', -⟩
  · rcases hu with hu | ⟨hu, -⟩
    · exact .inl (hu.trans ht)
    · exact .inl (hu.trans_lt ht)
  · rcases hu with hu | ⟨hu, hlt⟩
    · exact .inl (hu.trans_eq hsums')
    · exact .inr ⟨hu.trans hsums', hlt.trans_le (hcost' p)⟩

/-- What is cheaper by itself is so as a factor, if what it is compared with costs the same in both roles. -/
theorem Cheaper.factor (h : Cheaper .apart u t) (ht : cost .factor t = cost .apart t) : Cheaper .factor u t := by
  rcases h with h | ⟨hsums, hcost⟩
  · exact .inl h
  · exact .inr ⟨hsums, ht ▸ (cost_le_apart u).1.trans_lt hcost⟩

theorem NoCostlier.negate (h : NoCostlier u t) : NoCostlier (.negate () u) (.negate () t) := by
  rcases h with h | ⟨hsums, hcost, -⟩
  · exact .inl h
  · exact .of_le rfl hsums.le fun p => Nat.add_le_add_left (hcost p) _

/-- **Operands that are no costlier make a node no costlier.** -/
theorem NoCostlier.binary (op : BinaryOp) (ha : NoCostlier a' a) (hb : NoCostlier b' b) :
    NoCostlier (.binary () op a' b') (.binary () op a b) := by
  rcases ha with ha | ⟨hsa, hca, -⟩
  · have hsb := hb.sums_le
    exact .inl (by simp only [sums]; omega)
  · rcases hb with hb | ⟨hsb, hcb, hlb⟩
    · exact .inl (by simp only [sums]; omega)
    · refine .of_le rfl (by simp only [sums]; omega) fun p => ?_
      have hcap := hca p
      have hcbp := hcb p
      have hcbf := hcb p.flip
      have haa := hca .apart
      have hba := hcb .apart
      have haf := hca .factor
      have hbf := hcb .factor
      cases op with
      | pow =>
        simp only [cost]
        split_ifs with h h'
        · omega
        · omega
        · exact absurd (hlb ‹_›) h
        · omega
      | _ => simp only [cost]; omega

theorem NoCostlier.list {us ts : List (Term α)} (h : List.Forall₂ NoCostlier us ts) :
    NoCostlier (.list () us) (.list () ts) := by
  have hall : sumsAll us < sumsAll ts ∨ sumsAll us = sumsAll ts ∧ costAll us ≤ costAll ts := by
    induction h with
    | nil => exact .inr ⟨rfl, Nat.le_refl _⟩
    | cons hut _ ih =>
      have hle := hut.sums_le
      rcases hut with hut | ⟨hsums, hcost, -⟩
      · refine .inl ?_
        simp only [sumsAll]
        omega
      · have hapart := hcost .apart
        simp only [sumsAll, costAll]
        omega
  rcases hall with h | ⟨hsums, hcost⟩
  · exact .inl h
  · exact .of_le rfl hsums.le fun p => Nat.add_le_add_left hcost _

/-- **An operand that is cheaper in its role makes a node cheaper.** -/
theorem Cheaper.binary (op : BinaryOp) (ha : NoCostlier a' a) (hb : NoCostlier b' b)
    (h : Cheaper (p.left op) a' a ∨ Cheaper (p.right op) b' b) :
    Cheaper p (.binary () op a' b') (.binary () op a b) := by
  have hsa := ha.sums_le
  have hsb := hb.sums_le
  have hlt : sums a' < sums a ∨ sums b' < sums b →
      Cheaper p (.binary () op a' b') (.binary () op a b) := fun hlt => .inl (by simp only [sums]; omega)
  rcases ha with ha | ⟨hsa, hca, -⟩
  · exact hlt (.inl ha)
  rcases hb with hb | ⟨hsb, hcb, hlb⟩
  · exact hlt (.inr hb)
  have hcost : cost (p.left op) a' < cost (p.left op) a ∨ cost (p.right op) b' < cost (p.right op) b := by
    rcases h with (h | ⟨-, h⟩) | (h | ⟨-, h⟩)
    · exact absurd h (by omega)
    · exact .inl h
    · exact absurd h (by omega)
    · exact .inr h
  refine .inr ⟨by simp only [sums]; omega, ?_⟩
  have hleft := hca (p.left op)
  have hright := hcb (p.right op)
  cases op with
  | pow =>
    simp only [cost, Role.left, Role.right] at hcost hleft hright ⊢
    split_ifs with h h'
    · omega
    · omega
    · exact absurd (hlb ‹_›) h
    · omega
  | _ =>
    simp only [cost, Role.left, Role.right] at hcost hleft hright ⊢
    omega

/-- A cheaper operand makes a sign cheaper. -/
theorem Cheaper.negate (h : Cheaper p u t) : Cheaper p (.negate () u) (.negate () t) := by
  rcases h with h | ⟨hsums, hcost⟩
  · exact .inl h
  · exact .inr ⟨hsums, Nat.add_lt_add_left hcost _⟩

/-! ## Rules -/

/-- **A rule makes no root costlier.** -/
def Rule.IsMild (r : Rule α) : Prop := ∀ b t u, r b t = some u → NoCostlier u t

theorem graded_noCostlier : Graded fun _ (t u : Term α) => NoCostlier u t where
  refl := .refl
  trans htu huw := huw.trans htu
  negate h := h.negate
  binary op ha hb := .binary op ha hb
  list h := .list h.forall₂.flip

/-- **A pass by a mild rule makes no tree costlier.** -/
theorem noCostlier_rewriteUp {r : Rule α} (hr : r.IsMild) (b : Bool) (t : Term α) :
    NoCostlier (rewriteUp r b t).1 t :=
  graded_rewriteUp graded_noCostlier hr b t

theorem noCostlier_rewriteUpAll {r : Rule α} (hr : r.IsMild) (ts : List (Term α)) :
    List.Forall₂ NoCostlier (rewriteUpAll r ts).1 ts :=
  (graded_rewriteUpAll graded_noCostlier hr ts).forall₂.flip

/-- **A rule lowers the cost** wherever it changes a root that stands by itself, and leaves written products alone. -/
structure Rule.Lowers [Scalar α] (r : Rule α) : Prop where
  mild : r.IsMild
  apart : ∀ b t u, r b t = some u → Cheaper .apart u t
  /-- A sum goes. -/
  sum : ∀ b t u, r b t = some u → t.isAdditive → sums u < sums t
  product : ∀ b t f, f.isAtom → t.isLiteral Scalar.one = false → r b (.binary () .mul t f) = none

section Rules

variable [Scalar α]

/-- A tree of which the value is known is an operator on literals. -/
theorem literal_operands {t : Term α} {v : α} (h : literalValue? t = some v) :
    (∃ x, t = .negate () (.literal () x)) ∨ ∃ op x y, t = .binary () op (.literal () x) (.literal () y) := by
  cases t with
  | negate l t =>
    cases t with
    | literal k x => exact .inl ⟨x, rfl⟩
    | _ => cases h
  | binary l op a b =>
    cases a with
    | literal k x =>
      cases b with
      | literal m y => exact .inr ⟨op, x, y, rfl⟩
      | _ => cases h
    | _ => cases h
  | _ => cases h

theorem foldRule_eq_some {b : Bool} {t u : Term α} (h : foldRule b t = some u) :
    ∃ v, literalValue? t = some v ∧ u = .literal () v := by
  obtain ⟨v, hv, rfl⟩ := Option.map_eq_some_iff.mp h
  exact ⟨v, (Option.filter_eq_some_iff.mp hv).1, rfl⟩

/-- The value of an operator on literals is that of the tree. -/
theorem value_of_literalValue {t : Term α} {v : α} (h : literalValue? t = some v)
    (load : String → Except ExprError α) : t.value load = .ok v := by
  rcases literal_operands h with ⟨x, rfl⟩ | ⟨op, x, y, rfl⟩
  · cases h
    rfl
  · rw [literalValue?] at h
    split at h
    · cases h
    · cases h
      rfl

/-- **Folding lowers the cost.** -/
theorem lowers_fold : (foldRule : Rule α).Lowers where
  mild b t u h := by
    obtain ⟨v, hv, rfl⟩ := foldRule_eq_some h
    rcases literal_operands hv with ⟨x, rfl⟩ | ⟨op, x, y, rfl⟩
    · exact .of_le rfl (Nat.le_refl _) fun p => Nat.le_add_left _ _
    · refine .of_le rfl (Nat.zero_le _) fun p => ?_
      cases op <;> cases p <;> simp [cost, Role.literal, Role.step, Role.toll, Role.flip, literal?]
  apart b t u h := by
    obtain ⟨v, hv, rfl⟩ := foldRule_eq_some h
    rcases literal_operands hv with ⟨x, rfl⟩ | ⟨op, x, y, rfl⟩
    · exact .inr ⟨rfl, Nat.lt_succ_self _⟩
    · cases op with
      | add | sub => exact .inl Nat.one_pos
      | _ => exact .inr ⟨rfl, by simp [cost, Role.literal, Role.step, Role.toll, Role.flip, literal?]⟩
  sum b t u h ht := by
    obtain ⟨v, hv, rfl⟩ := foldRule_eq_some h
    rcases literal_operands hv with ⟨x, rfl⟩ | ⟨op, x, y, rfl⟩
    · cases ht
    · cases op with
      | add | sub => exact Nat.one_pos
      | _ => cases ht
  product b t f hf _ := by
    rw [foldRule]
    cases t with
    | literal =>
      cases f with
      | literal => cases hf
      | _ => rfl
    | _ => rfl

theorem eq_literal_of_isLiteral {t : Term α} {c : α} (h : t.isLiteral c = true) : ∃ v, t = .literal () v := by
  cases t with
  | literal l v => exact ⟨v, rfl⟩
  | _ => cases h

/-- **What an identity leaves of an operator.** -/
inductive Reduces : BinaryOp → Term α → Term α → Term α → Prop where
  | zeroAdd (v : α) (b : Term α) : Reduces .add (.literal () v) b b
  | addZero (a : Term α) (v : α) : Reduces .add a (.literal () v) a
  | subZero (a : Term α) (v : α) : Reduces .sub a (.literal () v) a
  | oneMul (v : α) (b : Term α) : Reduces .mul (.literal () v) b b
  | mulOne (a : Term α) (v : α) : Reduces .mul a (.literal () v) a
  | divOne (a : Term α) (v : α) : Reduces .div a (.literal () v) a
  | powOne (a : Term α) (v : α) : Reduces .pow a (.literal () v) a
  | one (a b : Term α) : Reduces .pow a b (.literal () Scalar.one)

/-- What an operator is reduced to. -/
def Reduct.result (a b : Term α) : Reduct → Term α
  | .left => a
  | .right => b
  | .one => .literal () Scalar.one

theorem reduces_of_reduct {op : BinaryOp} {a b : Term α} {r : Reduct} (h : reduct? op a b = some r) :
    Reduces op a b (r.result a b) := by
  cases op with
  | add =>
    simp only [reduct?] at h
    split_ifs at h with hzero hzero'
    · obtain ⟨v, rfl⟩ := eq_literal_of_isLiteral hzero
      cases h
      exact .zeroAdd v b
    · obtain ⟨v, rfl⟩ := eq_literal_of_isLiteral hzero'
      cases h
      exact .addZero a v
  | sub =>
    simp only [reduct?] at h
    split_ifs at h with hzero
    obtain ⟨v, rfl⟩ := eq_literal_of_isLiteral hzero
    cases h
    exact .subZero a v
  | mul =>
    simp only [reduct?] at h
    split_ifs at h with hone hone'
    · obtain ⟨v, rfl⟩ := eq_literal_of_isLiteral hone
      cases h
      exact .oneMul v b
    · obtain ⟨v, rfl⟩ := eq_literal_of_isLiteral hone'
      cases h
      exact .mulOne a v
  | div =>
    simp only [reduct?] at h
    split_ifs at h with hone
    obtain ⟨v, rfl⟩ := eq_literal_of_isLiteral hone
    cases h
    exact .divOne a v
  | pow =>
    simp only [reduct?] at h
    split_ifs at h with hone hother
    · obtain ⟨v, rfl⟩ := eq_literal_of_isLiteral hone
      cases h
      exact .powOne a v
    · cases h
      exact .one a b
  | mod | comma => cases h

/-- **An identity removes a sign twice, or an operator.** -/
theorem reduceRule_eq_some {inSum : Bool} {t u : Term α} (h : reduceRule inSum t = some u) :
    t = .negate () (.negate () u) ∨ ∃ op a b, t = .binary () op a b ∧ Reduces op a b u := by
  cases t with
  | negate l t =>
    cases t with
    | negate k w =>
      cases h
      exact .inl rfl
    | _ => cases h
  | binary l op a b =>
    refine .inr ⟨op, a, b, rfl, ?_⟩
    rw [reduceRule] at h
    cases hr : reduct? op a b with
    | none =>
      rw [hr] at h
      cases h
    | some r =>
      rw [hr] at h
      have hu : r.result a b = u := by cases r <;> exact Option.some.inj h
      exact hu ▸ reduces_of_reduct hr
  | _ => cases h

theorem collectRule_eq_some {b : Bool} {t u : Term α} (h : collectRule b t = some u) :
    u = collectSum t ∧ t.isAdditive = true ∧ b = false ∧ t.same u = false := by
  rw [collectRule] at h
  split at h
  · next hcond =>
    cases h
    simpa [and_assoc] using hcond
  · cases h

theorem Reduces.sums_le {op : BinaryOp} {a b u : Term α} (h : Reduces op a b u) :
    sums u + (if op.isAdditive then 1 else 0) ≤ sums (.binary () op a b) := by
  cases h <;> simp only [sums, BinaryOp.isAdditive] <;> split_ifs <;> omega

theorem Reduces.cost_le {op : BinaryOp} {a b u : Term α} (h : Reduces op a b u) (hop : op.isAdditive = false)
    (p : Role) : cost p u + p.step ≤ cost p (.binary () op a b) := by
  cases h with
  | zeroAdd | addZero | subZero => cases hop
  | oneMul v b => cases p <;> simp only [cost, Role.literal, Role.step] <;> omega
  | mulOne a v => cases p <;> simp only [cost, Role.literal, Role.step] <;> omega
  | divOne a v => cases p <;> simp only [cost, Role.literal, Role.step, Role.flip] <;> omega
  | powOne a v =>
    have ha := SignalFlow.Tree.cost_le p a
    cases p <;> simp only [cost, Role.literal, Role.step, Role.toll, literal?] at ha ⊢ <;> split_ifs <;> omega
  | one a b =>
    have ha := cost_pos a
    have hb := cost_pos b
    cases p <;> simp only [cost, Role.literal, Role.step, Role.toll] <;> split_ifs <;> omega

/-- **Applying identities lowers the cost.** -/
theorem lowers_reduce : (reduceRule : Rule α).Lowers where
  mild b t u h := by
    rcases reduceRule_eq_some h with rfl | ⟨op, x, y, rfl, hu⟩
    · refine .of_le rfl (Nat.le_refl _) fun p => ?_
      simp only [cost]
      omega
    · have hsums := hu.sums_le
      cases hop : op.isAdditive with
      | true =>
        rw [hop, if_pos rfl] at hsums
        exact .inl hsums
      | false =>
        refine .of_le rfl (by omega) fun p => ?_
        have hcost := hu.cost_le hop p
        omega
  apart b t u h := by
    rcases reduceRule_eq_some h with rfl | ⟨op, x, y, rfl, hu⟩
    · refine .inr ⟨rfl, ?_⟩
      simp only [cost, Role.step]
      omega
    · have hsums := hu.sums_le
      cases hop : op.isAdditive with
      | true =>
        rw [hop, if_pos rfl] at hsums
        exact .inl hsums
      | false =>
        have hcost := hu.cost_le hop .apart
        simp only [Role.step] at hcost
        rw [Cheaper]
        omega
  sum b t u h ht := by
    rcases reduceRule_eq_some h with rfl | ⟨op, x, y, rfl, hu⟩
    · cases ht
    · have hop : op.isAdditive = true := ht
      have hsums := hu.sums_le
      rwa [hop, if_pos rfl] at hsums
  product b t f hf ht := by
    have hf' : f.isLiteral Scalar.one = false := by
      cases f with
      | literal => cases hf
      | _ => rfl
    rw [reduceRule, reduct?, ht, hf']
    rfl

end Rules

end Rewrite

end SignalFlow
