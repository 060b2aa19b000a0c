import Mathlib.Tactic.Ring
import SignalFlow.Proofs.Expr.Regular
import SignalFlow.Rewrite.Chain
import SignalFlow.Rewrite.Fold
import SignalFlow.Rewrite.Identity

/-!
# Folding, identities and turns keep values

Three passes apply a rule at every node. A rule keeps what the node yields (`keeps_foldRoot`, `keeps_reduceRoot`,
`keeps_turnAll`), and the pass goes through the tree by recursion, so it keeps what the tree yields (`keeps_fold`,
`keeps_reduce`, `keeps_sweepUntil`).
-/

namespace SignalFlow.Rewrite

open SignalFlow.Tree

variable {ι K : Type} [Field K] [Scalar K] {load : String → Except ExprError K}

/-! ## Folding -/

/-- The value of an operator on literals is what it yields. -/
theorem keeps_literalValue {l : ι} {t : Tree ι K} {v : K} (h : literalValue? t = some v) :
    Keeps load t (.literal l v : Tree ι K) := by
  intro x hx
  rw [yields_literal]
  unfold literalValue? at h
  split at h
  · cases h
    obtain ⟨y, hy, rfl⟩ := yields_negate.mp hx
    rw [yields_literal.mp hy]
  · split at h
    · cases h
    · cases h
      obtain ⟨y, z, hy, hz, -, rfl⟩ := yields_binary.mp hx
      rw [yields_literal.mp hy, yields_literal.mp hz]
  · cases h

theorem keeps_foldRoot (t : Tree ι K) (p : Progress ι) : Keeps load t (foldRoot t p).1 := by
  unfold foldRoot
  cases h : (literalValue? t).filter Scalar.isFinite with
  | none => exact Keeps.refl t
  | some v => exact keeps_literalValue (Option.filter_eq_some_iff.mp h).1

mutual

/-- **Folding constants keeps values.** -/
theorem keeps_fold (t : Tree ι K) (p : Progress ι) : Keeps load t (fold t p).1 := by
  match t with
  | .literal _ _ | .var _ _ | .infinity _ => exact Keeps.refl _
  | .negate _ t => exact (Keeps.negate (keeps_fold t p)).trans (keeps_foldRoot _ _)
  | .binary _ op a b => exact (Keeps.binary (keeps_fold a p) (keeps_fold b _)).trans (keeps_foldRoot _ _)
  | .list _ items => exact Keeps.list (keeps_foldAll items p)

theorem keeps_foldAll (ts : List (Tree ι K)) (p : Progress ι) : List.Forall₂ (Keeps load) ts (foldAll ts p).1 := by
  match ts with
  | [] => exact .nil
  | t :: ts => exact .cons (keeps_fold t p) (keeps_foldAll ts _)

end

/-! ## What the operators yield -/

section Operators

variable {l : ι} {a b : Tree ι K} {v : K}

theorem yields_pow :
    (binary l .pow a b).Yields load v ↔ ∃ x y, a.Yields load x ∧ b.Yields load y ∧ v = Scalar.pow x y := by
  simp [yields_binary, BinaryOp.Admits, BinaryOp.apply]

section Exact

variable [Scalar.ExactField K]

theorem yields_add : (binary l .add a b).Yields load v ↔ ∃ x y, a.Yields load x ∧ b.Yields load y ∧ v = x + y := by
  simp [yields_binary, BinaryOp.Admits, BinaryOp.apply, Scalar.Exact.add_eq]

theorem yields_sub : (binary l .sub a b).Yields load v ↔ ∃ x y, a.Yields load x ∧ b.Yields load y ∧ v = x - y := by
  simp [yields_binary, BinaryOp.Admits, BinaryOp.apply, Scalar.Exact.sub_eq]

theorem yields_mul : (binary l .mul a b).Yields load v ↔ ∃ x y, a.Yields load x ∧ b.Yields load y ∧ v = x * y := by
  simp [yields_binary, BinaryOp.Admits, BinaryOp.apply, Scalar.Exact.mul_eq]

theorem yields_div :
    (binary l .div a b).Yields load v ↔ ∃ x y, a.Yields load x ∧ b.Yields load y ∧ y ≠ 0 ∧ v = x / y := by
  simp only [yields_binary, BinaryOp.Admits, BinaryOp.apply]
  refine exists_congr fun x => exists_congr fun y => and_congr_right fun _ => and_congr_right fun _ => ?_
  exact and_congr_right fun hy => by rw [Scalar.ExactField.div_eq x y hy]

theorem yields_neg : (negate l a).Yields load v ↔ ∃ x, a.Yields load x ∧ v = -x := by
  simp [yields_negate, Scalar.Exact.neg_eq]

end Exact

/-- A literal that is recognized as a number yields it. -/
theorem yields_of_isLiteral [LinearOrder K] [Scalar.OrderedField K] {t : Tree ι K} {c : K}
    (h : t.isLiteral c = true) : t.Yields load c := by
  cases t with
  | literal l v =>
    have hv : v = c := (Scalar.OrderedField.eq_iff v c).mp h
    exact yields_literal.mpr hv
  | _ => cases h

end Operators

/-! ## Identities -/

/-- What is left of an operator and its operands yields a value. -/
def Reduct.Yields (load : String → Except ExprError K) (a b : Tree ι K) (v : K) : Reduct → Prop
  | .left => a.Yields load v
  | .right => b.Yields load v
  | .one => v = 1

/-- An operator that reduces to something yields what this yields. -/
theorem yields_reduct [LinearOrder K] [Scalar.OrderedField K] {l : ι} {op : BinaryOp} {a b : Tree ι K}
    {r : Reduct} (h : reduct? op a b = some r) {v : K} (hv : (binary l op a b).Yields load v) :
    r.Yields load a b v := by
  have hzero : ∀ {t : Tree ι K}, t.isLiteral Scalar.zero = true → t.Yields load 0 := fun ht =>
    Scalar.OrderedField.zero_eq (K := K) ▸ yields_of_isLiteral ht
  have hone : ∀ {t : Tree ι K}, t.isLiteral Scalar.one = true → t.Yields load 1 := fun ht =>
    Scalar.OrderedField.one_eq (K := K) ▸ yields_of_isLiteral ht
  cases op with
  | add =>
    obtain ⟨x, y, hx, hy, rfl⟩ := yields_add.mp hv
    rw [reduct?] at h
    split at h
    · next ha => cases h; rw [hx.unique (hzero ha), zero_add]; exact hy
    · split at h
      · next hb => cases h; rw [hy.unique (hzero hb), add_zero]; exact hx
      · cases h
  | sub =>
    obtain ⟨x, y, hx, hy, rfl⟩ := yields_sub.mp hv
    rw [reduct?] at h
    split at h
    · next hb => cases h; rw [hy.unique (hzero hb), sub_zero]; exact hx
    · cases h
  | mul =>
    obtain ⟨x, y, hx, hy, rfl⟩ := yields_mul.mp hv
    rw [reduct?] at h
    split at h
    · next ha => cases h; rw [hx.unique (hone ha), one_mul]; exact hy
    · split at h
      · next hb => cases h; rw [hy.unique (hone hb), mul_one]; exact hx
      · cases h
  | div =>
    obtain ⟨x, y, hx, hy, -, rfl⟩ := yields_div.mp hv
    rw [reduct?] at h
    split at h
    · next hb => cases h; rw [hy.unique (hone hb), div_one]; exact hx
    · cases h
  | pow =>
    obtain ⟨x, y, hx, hy, rfl⟩ := yields_pow.mp hv
    rw [reduct?] at h
    split at h
    · next hb => cases h; rw [hy.unique (hone hb), Scalar.OrderedField.pow_one]; exact hx
    · split at h
      · next hab =>
        cases h
        rcases (Bool.or_eq_true _ _).mp hab with hb | ha
        · rw [hy.unique (hzero hb)]; exact Scalar.OrderedField.pow_zero x
        · rw [hx.unique (hone ha)]; exact Scalar.OrderedField.one_pow y
      · cases h
  | mod => cases h
  | comma => cases h

theorem keeps_reduceRoot [LinearOrder K] [Scalar.OrderedField K] (t : Tree ι K) (p : Progress ι) :
    Keeps load t (reduceRoot t p).1 := by
  intro v hv
  unfold reduceRoot
  split
  · next l m u =>
    obtain ⟨x, hx, rfl⟩ := yields_neg.mp hv
    obtain ⟨y, hy, rfl⟩ := yields_neg.mp hx
    rw [neg_neg]
    exact hy
  · next l op a b =>
    split
    · next h => exact yields_reduct h hv
    · next h => exact yields_reduct h hv
    · next h =>
      have hone : v = 1 := yields_reduct h hv
      rw [hone, yields_literal]
      exact Scalar.OrderedField.one_eq
    · exact hv
  · exact hv

mutual

/-- **Applying identities keeps values.** -/
theorem keeps_reduce [LinearOrder K] [Scalar.OrderedField K] (t : Tree ι K) (p : Progress ι) :
    Keeps load t (reduce t p).1 := by
  match t with
  | .literal _ _ | .var _ _ | .infinity _ => exact Keeps.refl _
  | .negate _ t => exact (Keeps.negate (keeps_reduce t p)).trans (keeps_reduceRoot _ _)
  | .binary _ op a b => exact (Keeps.binary (keeps_reduce a p) (keeps_reduce b _)).trans (keeps_reduceRoot _ _)
  | .list _ items => exact Keeps.list (keeps_reduceAll items p)

theorem keeps_reduceAll [LinearOrder K] [Scalar.OrderedField K] (ts : List (Tree ι K)) (p : Progress ι) :
    List.Forall₂ (Keeps load) ts (reduceAll ts p).1 := by
  match ts with
  | [] => exact .nil
  | t :: ts => exact .cons (keeps_reduce t p) (keeps_reduceAll ts _)

end

/-! ## Turns -/

variable [LinearOrder K] [Scalar.OrderedField K]

/-- What a turn makes of `a (b c)`. -/
def Turn.tree {α : Type} (k l : ι) (a b c : Tree ι α) : Turn → Tree ι α
  | .associate o i => binary k o (binary l i a b) c
  | .cross o i => binary k o (binary l i a c) b
  | .exchange o i => binary k o (binary l i b c) a
  | .reverse o i => binary k o (binary l i c b) a

/-- Sums and differences may be regrouped. -/
theorem keeps_turn_sum {k l : ι} {outer inner : BinaryOp} {inChain : Bool} {a b c : Tree ι K} {t : Turn}
    (houter : outer.isAdditive = true) (h : turn? outer inner inChain = some t) :
    Keeps load (binary k outer a (binary l inner b c)) (t.tree k l a b c) := by
  intro v hv
  match outer, inner, inChain, h with
  | .add, .add, false, rfl =>
    obtain ⟨x, s, hx, hs, rfl⟩ := yields_add.mp hv
    obtain ⟨y, z, hy, hz, rfl⟩ := yields_add.mp hs
    exact yields_add.mpr ⟨y + z, x, yields_add.mpr ⟨y, z, hy, hz, rfl⟩, hx, by ring⟩
  | .add, .add, true, rfl =>
    obtain ⟨x, s, hx, hs, rfl⟩ := yields_add.mp hv
    obtain ⟨y, z, hy, hz, rfl⟩ := yields_add.mp hs
    exact yields_add.mpr ⟨x + y, z, yields_add.mpr ⟨x, y, hx, hy, rfl⟩, hz, by ring⟩
  | .sub, .sub, false, rfl =>
    obtain ⟨x, s, hx, hs, rfl⟩ := yields_sub.mp hv
    obtain ⟨y, z, hy, hz, rfl⟩ := yields_sub.mp hs
    exact yields_add.mpr ⟨z - y, x, yields_sub.mpr ⟨z, y, hz, hy, rfl⟩, hx, by ring⟩
  | .sub, .sub, true, rfl =>
    obtain ⟨x, s, hx, hs, rfl⟩ := yields_sub.mp hv
    obtain ⟨y, z, hy, hz, rfl⟩ := yields_sub.mp hs
    exact yields_add.mpr ⟨x - y, z, yields_sub.mpr ⟨x, y, hx, hy, rfl⟩, hz, by ring⟩
  | .add, .sub, false, rfl =>
    obtain ⟨x, s, hx, hs, rfl⟩ := yields_add.mp hv
    obtain ⟨y, z, hy, hz, rfl⟩ := yields_sub.mp hs
    exact yields_add.mpr ⟨y - z, x, yields_sub.mpr ⟨y, z, hy, hz, rfl⟩, hx, by ring⟩
  | .add, .sub, true, rfl =>
    obtain ⟨x, s, hx, hs, rfl⟩ := yields_add.mp hv
    obtain ⟨y, z, hy, hz, rfl⟩ := yields_sub.mp hs
    exact yields_sub.mpr ⟨x + y, z, yields_add.mpr ⟨x, y, hx, hy, rfl⟩, hz, by ring⟩
  | .sub, .add, false, rfl | .sub, .add, true, rfl =>
    obtain ⟨x, s, hx, hs, rfl⟩ := yields_sub.mp hv
    obtain ⟨y, z, hy, hz, rfl⟩ := yields_add.mp hs
    exact yields_sub.mpr ⟨x - y, z, yields_sub.mpr ⟨x, y, hx, hy, rfl⟩, hz, by ring⟩

/-- Products and quotients may be regrouped: where a quotient by a product or quotient is regular, so are the quotients
by its parts. -/
theorem keeps_turn_product {k l : ι} {outer inner : BinaryOp} {inChain : Bool} {a b c : Tree ι K} {t : Turn}
    (houter : outer.isMultiplicative = true) (h : turn? outer inner inChain = some t) :
    Keeps load (binary k outer a (binary l inner b c)) (t.tree k l a b c) := by
  intro v hv
  match outer, inner, inChain, h with
  | .mul, .mul, false, rfl =>
    obtain ⟨x, s, hx, hs, rfl⟩ := yields_mul.mp hv
    obtain ⟨y, z, hy, hz, rfl⟩ := yields_mul.mp hs
    exact yields_mul.mpr ⟨y * z, x, yields_mul.mpr ⟨y, z, hy, hz, rfl⟩, hx, by ring⟩
  | .mul, .mul, true, rfl =>
    obtain ⟨x, s, hx, hs, rfl⟩ := yields_mul.mp hv
    obtain ⟨y, z, hy, hz, rfl⟩ := yields_mul.mp hs
    exact yields_mul.mpr ⟨x * y, z, yields_mul.mpr ⟨x, y, hx, hy, rfl⟩, hz, by ring⟩
  | .mul, .div, false, rfl =>
    obtain ⟨x, s, hx, hs, rfl⟩ := yields_mul.mp hv
    obtain ⟨y, z, hy, hz, hz0, rfl⟩ := yields_div.mp hs
    exact yields_mul.mpr ⟨y / z, x, yields_div.mpr ⟨y, z, hy, hz, hz0, rfl⟩, hx, by ring⟩
  | .mul, .div, true, rfl =>
    obtain ⟨x, s, hx, hs, rfl⟩ := yields_mul.mp hv
    obtain ⟨y, z, hy, hz, hz0, rfl⟩ := yields_div.mp hs
    exact yields_div.mpr ⟨x * y, z, yields_mul.mpr ⟨x, y, hx, hy, rfl⟩, hz, hz0, by ring⟩
  | .div, .mul, false, rfl | .div, .mul, true, rfl =>
    obtain ⟨x, s, hx, hs, hs0, rfl⟩ := yields_div.mp hv
    obtain ⟨y, z, hy, hz, rfl⟩ := yields_mul.mp hs
    obtain ⟨hy0, hz0⟩ := mul_ne_zero_iff.mp hs0
    exact yields_div.mpr ⟨x / y, z, yields_div.mpr ⟨x, y, hx, hy, hy0, rfl⟩, hz, hz0, by rw [div_div]⟩
  | .div, .div, false, rfl | .div, .div, true, rfl =>
    obtain ⟨x, s, hx, hs, hs0, rfl⟩ := yields_div.mp hv
    obtain ⟨y, z, hy, hz, hz0, rfl⟩ := yields_div.mp hs
    have hy0 : y ≠ 0 := fun h => hs0 (by rw [h, zero_div])
    exact yields_div.mpr ⟨x * z, y, yields_mul.mpr ⟨x, z, hx, hz, rfl⟩, hy, hy0, by rw [div_div_eq_mul_div]⟩

/-- Only sums and products are turned. -/
theorem isAdditive_or_isMultiplicative_of_turn? {outer inner : BinaryOp} {inChain : Bool} {t : Turn}
    (h : turn? outer inner inChain = some t) : outer.isAdditive = true ∨ outer.isMultiplicative = true := by
  cases outer with
  | add | sub => exact .inl rfl
  | mul | div => exact .inr rfl
  | mod | pow | comma => cases h

/-- **A turn keeps values**, whichever way it regroups the operands. -/
theorem keeps_turn {k l : ι} {outer inner : BinaryOp} {inChain : Bool} {a b c : Tree ι K} {t : Turn}
    (h : turn? outer inner inChain = some t) :
    Keeps load (binary k outer a (binary l inner b c)) (t.tree k l a b c) := by
  rcases isAdditive_or_isMultiplicative_of_turn? h with houter | houter
  · exact keeps_turn_sum houter h
  · exact keeps_turn_product houter h

theorem keeps_turnAll (k : ι) (outer : BinaryOp) (a r : Tree ι K) :
    Keeps load (binary k outer a r)
      (binary k (turnAll outer a r).op (turnAll outer a r).left (turnAll outer a r).right) := by
  fun_induction turnAll outer a r with
  | case1 outer a l inner b c o i h r ih => exact (keeps_turn h).trans ih
  | case2 outer a l inner b c o i h r ih => exact (keeps_turn h).trans ih
  | case3 outer a l inner b c o i h => exact keeps_turn h
  | case4 outer a l inner b c o i h => exact keeps_turn h
  | case5 | case6 | case7 | case8 | case9 | case10 => exact Keeps.refl _

/-- One sweep of turns keeps values, of a tree and of several trees. -/
theorem keeps_sweeps :
    (∀ t : Tree ι K, Keeps load t (sweep t).1) ∧
      ∀ ts : List (Tree ι K), List.Forall₂ (Keeps load) ts (sweepAll ts).1 := by
  apply sweep.mutual_induct
  case case1 | case2 | case3 => intros; rw [sweep]; exact Keeps.refl _
  case case4 =>
    intro l t u n _ ih
    rw [sweep]
    exact Keeps.negate ih
  case case5 =>
    intro l op a b r _ u m _ w n _ ihl ihr
    rw [sweep]
    exact (keeps_turnAll l op a b).trans (Keeps.binary ihl ihr)
  case case6 =>
    intro l items us n _ ih
    rw [sweep]
    exact Keeps.list ih
  case case7 => rw [sweepAll]; exact .nil
  case case8 =>
    intro t ts u m _ us n _ iht ihts
    rw [sweepAll]
    exact .cons iht ihts

/-- **Sweeps keep values**, however many there are. -/
theorem keeps_sweepUntil (fuel : Nat) (t : Tree ι K) (total : Nat) :
    Keeps load t (sweepUntil fuel t total).1 := by
  fun_induction sweepUntil fuel t total with
  | case1 => exact Keeps.refl _
  | case2 fuel t total u h =>
    have hu : Keeps load t (sweep t).1 := keeps_sweeps.1 t
    rwa [h] at hu
  | case3 fuel t total u n h ih =>
    have hu : Keeps load t (sweep t).1 := keeps_sweeps.1 t
    rw [h] at hu
    exact hu.trans ih

end SignalFlow.Rewrite
