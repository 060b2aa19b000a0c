import SignalFlow.Proofs.Expr.Variables
import SignalFlow.Proofs.Rewrite.Cost
import SignalFlow.Proofs.Rewrite.Rules

/-!
# Trees that are no finite number

Two things can be read off a tree without its variables: whether its value is zero or no number (it *vanishes*), and
whether it is infinite or no number (it *diverges*). What does both is no number. `Tree.defect` computes the two from
the leaves upwards, operator by operator, and what a tree evaluates to has every defect that the tree has
(`defect_le_of_value`). Folding constants, applying identities and turning chains keep the defects of a tree
(`spares_fold`, `spares_reduce`, `spares_sweepUntil`). Collecting like terms drops what cancels, so the defects come with
a flag under which only what cannot cancel counts in sums: infinity (`Boundless`), and literal factors that are not
finite (`EndlessTerm`).
-/

namespace SignalFlow

variable {α : Type}

/-! ## Defects -/

/-- **How a value fails to be a finite number other than zero.** -/
structure Defect where
  /-- It is zero, or no number. -/
  vanishes : Prop
  /-- It is infinite, or no number. -/
  diverges : Prop

namespace Defect

/-- Whether the value is no number. -/
def Undefined (d : Defect) : Prop := d.vanishes ∧ d.diverges

/-- No number on a condition. -/
def undefinedIf (p : Prop) : Defect := ⟨p, p⟩

/-- The defects of two values together. -/
def or (d e : Defect) : Defect := ⟨d.vanishes ∨ e.vanishes, d.diverges ∨ e.diverges⟩

/-- One defect has all that another has. -/
structure Le (d e : Defect) : Prop where
  vanishes : d.vanishes → e.vanishes
  diverges : d.diverges → e.diverges

instance : Preorder Defect where
  le := Le
  le_refl _ := ⟨id, id⟩
  le_trans _ _ _ hde hef := ⟨hef.vanishes ∘ hde.vanishes, hef.diverges ∘ hde.diverges⟩

variable {d e d' e' : Defect} {p : Prop}

theorem Undefined.mono (h : d.Undefined) (hle : d ≤ e) : e.Undefined := ⟨hle.vanishes h.1, hle.diverges h.2⟩

theorem undefinedIf_le (h : p → e.Undefined) : undefinedIf p ≤ e := ⟨fun hp => (h hp).1, fun hp => (h hp).2⟩

theorem or_mono (hd : d ≤ d') (he : e ≤ e') : d.or e ≤ d'.or e' :=
  ⟨Or.imp hd.vanishes he.vanishes, Or.imp hd.diverges he.diverges⟩

end Defect

/-- The defects of a scalar. -/
def Scalar.defect [Scalar α] (a : α) : Defect := ⟨isZero a = true ∨ isNaN a = true, isFinite a = false⟩

namespace BinaryOp

/-- **The defects of an operator**, from those of its operands. Of a power nothing is known: with the exponent zero it
is a number whatever its base is. -/
def defect (d e : Defect) : BinaryOp → Defect
  | .add | .sub => ⟨d.vanishes ∧ e.vanishes ∨ d.Undefined ∨ e.Undefined, d.diverges ∨ e.diverges⟩
  | .mul => ⟨d.vanishes ∨ e.vanishes, d.diverges ∨ e.diverges⟩
  | .div => ⟨d.vanishes ∨ e.diverges, d.diverges ∨ e.vanishes⟩
  | .mod => ⟨d.vanishes ∨ d.diverges ∨ e.vanishes, d.diverges ∨ e.vanishes⟩
  | .pow => .undefinedIf False
  | .comma => e

/-- **When an operator passes on infinity.** Divisors do not, since collecting like terms writes them as powers. -/
def Spreads (a b : Prop) : BinaryOp → Prop
  | .add | .sub | .mul | .mod => a ∨ b
  | .div => a
  | .pow => False
  | .comma => b

variable {op : BinaryOp} {d e d' e' : Defect} {a b a' b' : Prop}

theorem defect_mono (hd : d ≤ d') (he : e ≤ e') : op.defect d e ≤ op.defect d' e' := by
  cases op with
  | add | sub =>
    exact ⟨Or.imp (And.imp hd.vanishes he.vanishes) (Or.imp (·.mono hd) (·.mono he)), Or.imp hd.diverges he.diverges⟩
  | mul => exact ⟨Or.imp hd.vanishes he.vanishes, Or.imp hd.diverges he.diverges⟩
  | div => exact ⟨Or.imp hd.vanishes he.diverges, Or.imp hd.diverges he.vanishes⟩
  | mod =>
    exact ⟨Or.imp hd.vanishes (Or.imp hd.diverges he.vanishes), Or.imp hd.diverges he.vanishes⟩
  | pow => exact le_refl _
  | comma => exact he

theorem Spreads.mono (ha : a → a') (hb : b → b') (h : op.Spreads a b) : op.Spreads a' b' := by
  cases op with
  | add | sub | mul | mod => exact h.imp ha hb
  | div => exact ha h
  | pow => exact h
  | comma => exact hb h

theorem Spreads.operand (h : op.Spreads a b) : a ∨ b := by
  cases op with
  | add | sub | mul | mod => exact h
  | div => exact .inl h
  | pow => exact h.elim
  | comma => exact .inr h

/-- An operator on what is no number is no number. -/
theorem Spreads.undefined (h : op.Spreads d.Undefined e.Undefined) : (op.defect d e).Undefined := by
  cases op with
  | add | sub => exact ⟨.inr h, h.imp And.right And.right⟩
  | mul => exact ⟨h.imp And.left And.left, h.imp And.right And.right⟩
  | div => exact ⟨.inl h.1, .inl h.2⟩
  | mod => exact ⟨h.imp And.left fun he => .inr he.1, h.imp And.right And.left⟩
  | pow => exact h.elim
  | comma => exact h

/-- The operands of a sum may change places. -/
theorem sum_comm_le : add.defect d e ≤ add.defect e d where
  vanishes h := h.imp And.symm Or.symm
  diverges h := h.symm

/-- Sums may be regrouped. -/
theorem sum_assoc_le {f : Defect} : add.defect d (add.defect e f) ≤ add.defect (add.defect d e) f where
  vanishes h := by
    rcases h with ⟨hd, ⟨he, hf⟩ | he | hf⟩ | hd | ⟨⟨he, hf⟩ | he | hf, he' | hf'⟩
    · exact .inl ⟨.inl ⟨hd, he⟩, hf⟩
    · exact .inr (.inl ⟨.inr (.inr he), .inr he.2⟩)
    · exact .inr (.inr hf)
    · exact .inr (.inl ⟨.inr (.inl hd), .inl hd.2⟩)
    · exact .inr (.inl ⟨.inr (.inr ⟨he, he'⟩), .inr he'⟩)
    · exact .inr (.inr ⟨hf, hf'⟩)
    · exact .inr (.inl ⟨.inr (.inr he), .inr he'⟩)
    · exact .inr (.inl ⟨.inr (.inr he), .inr he.2⟩)
    · exact .inr (.inr hf)
    · exact .inr (.inr hf)
  diverges h := or_assoc.mpr h

end BinaryOp

/-- **Arithmetic in which no number comes out of what is none**, nor out of zero by zero or infinity by infinity. Powers
may do as they please. -/
class Scalar.Absorbing (α : Type) [Scalar α] : Prop where
  isNaN_of_undefined {a : α} : (defect a).Undefined → isNaN a = true
  defect_undefined : (defect (undefined : α)).Undefined
  finite_of_isZero {a : α} : isZero a = true → ¬(defect a).diverges
  finite_of_eq_one {a : α} : eq a one = true → ¬(defect a).diverges
  nonzero_of_eq_one {a : α} : eq a one = true → ¬(defect a).vanishes
  defect_le_neg (a : α) : defect a ≤ defect (neg a)
  defect_le_abs (a : α) : defect a ≤ defect (abs a)
  defect_le_apply (op : BinaryOp) (a b : α) : op.defect (defect a) (defect b) ≤ defect (op.apply a b)

/-! ## Trees -/

namespace Tree

mutual

/-- **A tree that infinity makes undefined**, also where like terms are collected. -/
def Boundless : Term α → Prop
  | .literal _ _ | .var _ _ => False
  | .infinity _ => True
  | .negate _ t => t.Boundless
  | .binary _ op a b => op.Spreads a.Boundless b.Boundless
  | .list _ items => BoundlessAny items

/-- Infinity makes one of several trees undefined. -/
def BoundlessAny : List (Term α) → Prop
  | [] => False
  | t :: ts => t.Boundless ∨ BoundlessAny ts

end

theorem boundlessAny_iff {ts : List (Term α)} : BoundlessAny ts ↔ ∃ t ∈ ts, t.Boundless := by
  induction ts with
  | nil => simp [BoundlessAny]
  | cons t ts ih => rw [BoundlessAny, ih, List.exists_mem_cons_iff]

variable [Scalar α]

/-- **A product with a literal factor that is not finite.** Divisors do not count: what is divided by infinity is zero. -/
def EndlessFactor : Term α → Prop
  | .literal _ v => (Scalar.defect v).diverges
  | .negate _ t => t.EndlessFactor
  | .binary _ .mul a b => a.EndlessFactor ∨ b.EndlessFactor
  | .binary _ .div a _ => a.EndlessFactor
  | _ => False

/-- **A sum one of whose terms is such a product.** Merging it with like terms does not make its coefficient finite. -/
def EndlessTerm : Term α → Prop
  | .binary _ .add a b | .binary _ .sub a b => a.EndlessTerm ∨ b.EndlessTerm
  | .negate _ t => t.EndlessTerm
  | t => t.EndlessFactor

/-- **The defects that cannot cancel**: those of a sum of which like terms are collected. -/
def lastingDefect (t : Term α) : Defect := ⟨t.Boundless, t.Boundless ∨ t.EndlessTerm⟩

mutual

/-- **The defects of a tree**, whatever its variables stand for. If like terms are collected, only what cannot cancel
counts in a sum. -/
def defect (collects : Bool) : Term α → Defect
  | .literal _ v => Scalar.defect v
  | .var _ _ => .undefinedIf False
  | .infinity _ => .undefinedIf True
  | .negate _ t => t.defect collects
  | .binary l op a b =>
    if collects && op.isAdditive then (Tree.binary l op a b).lastingDefect
    else op.defect (a.defect collects) (b.defect collects)
  | .list _ items => defectAll collects items

/-- The defects of several trees together. -/
def defectAll (collects : Bool) : List (Term α) → Defect
  | [] => .undefinedIf False
  | t :: ts => (t.defect collects).or (defectAll collects ts)

end

variable {collects : Bool}

/-- An operator of which like terms are collected. -/
theorem defect_sum {l : Unit} {op : BinaryOp} {a b : Term α} (h : (collects && op.isAdditive) = true) :
    (Tree.binary l op a b).defect collects = (Tree.binary l op a b).lastingDefect := by
  rw [defect, if_pos h]

theorem defect_binary {l : Unit} {op : BinaryOp} {a b : Term α} (h : (collects && op.isAdditive) = false) :
    (Tree.binary l op a b).defect collects = op.defect (a.defect collects) (b.defect collects) := by
  rw [defect, if_neg (Bool.eq_false_iff.mp h)]

mutual

/-- **A tree that infinity makes undefined is undefined.** -/
theorem Boundless.undefined {t : Term α} (ht : t.Boundless) : (t.defect collects).Undefined := by
  match t with
  | .literal _ _ | .var _ _ => exact ht.elim
  | .infinity _ => exact ⟨trivial, trivial⟩
  | .negate _ t => exact Boundless.undefined (t := t) ht
  | .binary l op a b =>
    cases h : collects && op.isAdditive with
    | true =>
      rw [defect_sum h]
      exact ⟨ht, .inl ht⟩
    | false =>
      rw [defect_binary h]
      exact (ht.mono Boundless.undefined Boundless.undefined).undefined
  | .list _ items =>
    have hitems : BoundlessAny items := ht
    exact hitems.undefined

theorem BoundlessAny.undefined {ts : List (Term α)} (hts : BoundlessAny ts) : (defectAll collects ts).Undefined := by
  match ts with
  | [] => exact hts.elim
  | t :: ts =>
    rcases hts with ht | hts
    · exact ⟨.inl ht.undefined.1, .inl ht.undefined.2⟩
    · exact ⟨.inr hts.undefined.1, .inr hts.undefined.2⟩

end

theorem not_endlessFactor_of_additive {l : Unit} {op : BinaryOp} {a b : Term α} (h : op.isAdditive = true) :
    ¬(Tree.binary l op a b).EndlessFactor := by
  cases op with
  | add | sub => exact id
  | _ => cases h

/-- A product with a literal factor that is not finite diverges. -/
theorem EndlessFactor.diverges {t : Term α} (ht : t.EndlessFactor) : (t.defect collects).diverges := by
  fun_induction EndlessFactor t with
  | case1 => exact ht
  | case2 l t ih => exact ih ht
  | case3 l a b iha ihb =>
    rw [defect_binary (Bool.and_false _)]
    exact ht.imp iha ihb
  | case4 l a b iha =>
    rw [defect_binary (Bool.and_false _)]
    exact .inl (iha ht)
  | case5 => exact ht.elim

/-- A product is a sum with one term. -/
theorem EndlessFactor.endlessTerm {t : Term α} (ht : t.EndlessFactor) : t.EndlessTerm := by
  fun_induction EndlessTerm t with
  | case1 | case2 => exact ht.elim
  | case3 l t ih => exact ih ht
  | case4 => exact ht

/-- A sum with such a term diverges. -/
theorem EndlessTerm.diverges {t : Term α} (ht : t.EndlessTerm) : (t.defect collects).diverges := by
  fun_induction EndlessTerm t with
  | case1 l a b iha ihb | case2 l a b iha ihb =>
    cases collects with
    | true => exact .inr ht
    | false => exact ht.imp iha ihb
  | case3 l t ih => exact ih ht
  | case4 => exact EndlessFactor.diverges ht

theorem lastingDefect_mono {t u : Term α} (hboundless : t.Boundless → u.Boundless)
    (hendless : t.EndlessTerm → u.EndlessTerm) : t.lastingDefect ≤ u.lastingDefect :=
  ⟨hboundless, Or.imp hboundless hendless⟩

/-- What cannot cancel is a defect whether like terms are collected or not. -/
theorem lastingDefect_le (t : Term α) : t.lastingDefect ≤ t.defect collects :=
  ⟨fun h => h.undefined.1, fun h => h.elim (fun h => h.undefined.2) EndlessTerm.diverges⟩

/-- Whether like terms are collected or not, the defects of an operator come from those of its operands. -/
theorem defect_binary_le (l : Unit) (op : BinaryOp) (a b : Term α) :
    (Tree.binary l op a b).defect collects ≤ op.defect (a.defect collects) (b.defect collects) := by
  cases h : collects && op.isAdditive with
  | true =>
    have hadditive : op.isAdditive = true := (Bool.and_eq_true _ _ ▸ h).2
    have hboundless : (Tree.binary l op a b).Boundless → (op.defect (a.defect collects) (b.defect collects)).Undefined :=
      fun hspreads => (hspreads.mono Boundless.undefined Boundless.undefined).undefined
    rw [defect_sum h]
    refine ⟨fun h => (hboundless h).1, fun h => h.elim (fun h => (hboundless h).2) fun h => ?_⟩
    cases op with
    | add | sub => exact h.imp EndlessTerm.diverges EndlessTerm.diverges
    | _ => cases hadditive
  | false => rw [defect_binary h]

/-- **What a tree evaluates to has the defects of the tree.** -/
theorem defect_le_of_value [Scalar.Absorbing α] {load : String → Except ExprError α} {t : Term α} {v : α}
    (hv : t.value load = .ok v) : t.defect collects ≤ Scalar.defect v := by
  induction t using childInduction generalizing v with
  | h t ih =>
    cases t with
    | literal l w =>
      cases hv
      exact le_refl _
    | var => exact Defect.undefinedIf_le False.elim
    | infinity =>
      cases hv
      exact Defect.undefinedIf_le fun _ => Scalar.Absorbing.defect_undefined
    | negate l t =>
      obtain ⟨x, hx, rfl⟩ := value_negate_eq_ok.mp hv
      exact (ih t List.mem_cons_self hx).trans (Scalar.Absorbing.defect_le_neg x)
    | binary l op a b =>
      obtain ⟨x, y, hx, hy, rfl⟩ := value_binary_eq_ok.mp hv
      have ha := ih a List.mem_cons_self hx
      have hb := ih b (List.mem_cons_of_mem _ (List.mem_singleton_self b)) hy
      calc (Tree.binary l op a b).defect collects
        _ ≤ op.defect (a.defect collects) (b.defect collects) := defect_binary_le l op a b
        _ ≤ op.defect (Scalar.defect x) (Scalar.defect y) := BinaryOp.defect_mono ha hb
        _ ≤ Scalar.defect (op.apply x y) := Scalar.Absorbing.defect_le_apply op x y
    | list l items =>
      obtain ⟨t, rfl, ht⟩ := value_list_eq_ok.mp hv
      have hle := ih t List.mem_cons_self ht
      exact ⟨fun h => hle.vanishes (h.resolve_right id), fun h => hle.diverges (h.resolve_right id)⟩

/-! ## What a change spares -/

/-- **A change of a tree spares its defects**, and what cannot cancel in it. -/
structure Spares (collects : Bool) (t u : Term α) : Prop where
  boundless : t.Boundless → u.Boundless
  endlessFactor : t.EndlessFactor → u.EndlessFactor
  endlessTerm : t.EndlessTerm → u.EndlessTerm
  defect : t.defect collects ≤ u.defect collects

namespace Spares

variable {t u w a b a' b' : Term α}

theorem refl (t : Term α) : Spares collects t t := ⟨id, id, id, le_refl _⟩

theorem trans (htu : Spares collects t u) (huw : Spares collects u w) : Spares collects t w :=
  ⟨huw.boundless ∘ htu.boundless, huw.endlessFactor ∘ htu.endlessFactor, huw.endlessTerm ∘ htu.endlessTerm,
    htu.defect.trans huw.defect⟩

theorem negate (h : Spares collects t u) : Spares collects (.negate () t) (.negate () u) :=
  ⟨h.boundless, h.endlessFactor, h.endlessTerm, h.defect⟩

theorem binary (op : BinaryOp) (ha : Spares collects a a') (hb : Spares collects b b') :
    Spares collects (.binary () op a b) (.binary () op a' b') := by
  have hboundless : (Tree.binary () op a b).Boundless → (Tree.binary () op a' b').Boundless :=
    fun h => h.mono ha.boundless hb.boundless
  have hfactor : (Tree.binary () op a b).EndlessFactor → (Tree.binary () op a' b').EndlessFactor := by
    cases op with
    | mul => exact Or.imp ha.endlessFactor hb.endlessFactor
    | div => exact ha.endlessFactor
    | _ => exact False.elim
  have hterm : (Tree.binary () op a b).EndlessTerm → (Tree.binary () op a' b').EndlessTerm := by
    cases op with
    | add | sub => exact Or.imp ha.endlessTerm hb.endlessTerm
    | _ => exact hfactor
  refine ⟨hboundless, hfactor, hterm, ?_⟩
  cases hsum : collects && op.isAdditive with
  | true =>
    rw [defect_sum hsum, defect_sum hsum]
    exact lastingDefect_mono hboundless hterm
  | false =>
    rw [defect_binary hsum, defect_binary hsum]
    exact BinaryOp.defect_mono ha.defect hb.defect

/-- Changes of the items of a list. -/
theorem list {ts us : List (Term α)} (h : List.Forall₂ (Spares collects) ts us) :
    Spares collects (.list () ts) (.list () us) where
  boundless hts := by
    change BoundlessAny us
    induction h with
    | nil => exact hts
    | cons ht _ ih => exact hts.imp ht.boundless ih
  endlessFactor := False.elim
  endlessTerm := False.elim
  defect := by
    change defectAll collects ts ≤ defectAll collects us
    induction h with
    | nil => exact le_refl _
    | cons ht _ ih => exact Defect.or_mono ht.defect ih

end Spares

end Tree

namespace Rewrite

open SignalFlow.Tree

variable {collects : Bool}

/-! ## Bottom-up passes -/

section Rules

variable [Scalar α] {r : Rule α}

/-- **A rule spares** the defects of a root. -/
def Rule.Spares (r : Rule α) (collects : Bool) : Prop := ∀ b t u, r b t = some u → t.Spares collects u

theorem graded_spares : Graded fun _ (t u : Term α) => t.Spares collects u where
  refl := .refl
  trans := Spares.trans
  negate := Spares.negate
  binary op := Spares.binary op
  list h := Spares.list h.forall₂

/-- **A pass by such a rule spares** the defects of a tree. -/
theorem spares_rewriteUp (hr : r.Spares collects) (b : Bool) (t : Term α) : t.Spares collects (rewriteUp r b t).1 :=
  graded_rewriteUp graded_spares hr b t

theorem not_boundless_of_isLiteral {t : Term α} {c : α} (h : t.isLiteral c = true) : ¬t.Boundless := by
  obtain ⟨v, rfl⟩ := eq_literal_of_isLiteral h
  exact id

variable [Scalar.Absorbing α]

/-- **Folding spares defects**: the value that a tree is replaced by has them. -/
theorem spares_fold : (foldRule : Rule α).Spares collects := by
  intro b t u h
  obtain ⟨v, hv, rfl⟩ := foldRule_eq_some h
  have hle : t.defect collects ≤ Scalar.defect v :=
    defect_le_of_value (value_of_literalValue hv fun _ => .error .notEvaluable)
  refine ⟨fun hboundless => ?_, fun h => hle.diverges h.diverges, fun h => hle.diverges h.diverges, hle⟩
  rcases literal_operands hv with ⟨x, rfl⟩ | ⟨op, x, y, rfl⟩
  · exact hboundless
  · exact hboundless.operand.elim id id

section Literals

variable {t : Term α}

theorem not_diverges_of_zero (h : t.isLiteral Scalar.zero = true) : ¬(t.defect collects).diverges := by
  obtain ⟨v, rfl⟩ := eq_literal_of_isLiteral h
  exact Scalar.Absorbing.finite_of_isZero h

theorem not_diverges_of_one (h : t.isLiteral Scalar.one = true) : ¬(t.defect collects).diverges := by
  obtain ⟨v, rfl⟩ := eq_literal_of_isLiteral h
  exact Scalar.Absorbing.finite_of_eq_one h

theorem not_vanishes_of_one (h : t.isLiteral Scalar.one = true) : ¬(t.defect collects).vanishes := by
  obtain ⟨v, rfl⟩ := eq_literal_of_isLiteral h
  exact Scalar.Absorbing.nonzero_of_eq_one h

end Literals

/-! ### Identities -/

variable {a b : Term α}

omit [Scalar.Absorbing α] in
/-- The operands of a sum may change places. -/
theorem spares_add_comm (a b : Term α) : Spares collects (.binary () .add a b) (.binary () .add b a) := by
  have hboundless : (Tree.binary () .add a b).Boundless → (Tree.binary () .add b a).Boundless := Or.symm
  have hendless : (Tree.binary () .add a b).EndlessTerm → (Tree.binary () .add b a).EndlessTerm := Or.symm
  refine ⟨hboundless, False.elim, hendless, ?_⟩
  cases collects with
  | true => exact lastingDefect_mono hboundless hendless
  | false => exact BinaryOp.sum_comm_le

omit [Scalar.Absorbing α] in
/-- The operands of a product may change places. -/
theorem spares_mul_comm (a b : Term α) : Spares collects (.binary () .mul a b) (.binary () .mul b a) := by
  refine ⟨Or.symm, Or.symm, Or.symm, ?_⟩
  rw [defect_binary (Bool.and_false _), defect_binary (Bool.and_false _)]
  exact ⟨Or.symm, Or.symm⟩

/-- Zero may be left out of a sum or a difference. -/
theorem spares_sum_zero {op : BinaryOp} (hop : op.isAdditive = true) (hb : b.isLiteral Scalar.zero = true) :
    Spares collects (.binary () op a b) a := by
  have hfinite : ¬(b.defect collects).diverges := not_diverges_of_zero hb
  have hle : (Tree.binary () op a b).defect collects ≤ op.defect (a.defect collects) (b.defect collects) :=
    defect_binary_le () op a b
  cases op with
  | add | sub =>
    exact ⟨fun hab => hab.resolve_right (not_boundless_of_isLiteral hb), False.elim,
      fun hab => hab.resolve_right fun hb => hfinite hb.diverges, hle.trans
      ⟨fun hab => hab.elim And.left fun hab => (hab.resolve_right fun hbd => hfinite hbd.2).1,
        fun hab => hab.resolve_right hfinite⟩⟩
  | _ => cases hop

/-- One may be left out of a product. -/
theorem spares_mul_one (hb : b.isLiteral Scalar.one = true) : Spares collects (.binary () .mul a b) a := by
  have hfinite : ¬(b.defect collects).diverges := not_diverges_of_one hb
  have hfactor : (Tree.binary () .mul a b).EndlessFactor → a.EndlessFactor := fun hab =>
    hab.resolve_right fun hb => hfinite hb.diverges
  exact ⟨fun hab => hab.resolve_right (not_boundless_of_isLiteral hb), hfactor, fun hab => (hfactor hab).endlessTerm,
    (defect_binary_le () .mul a b).trans
      ⟨fun hab => hab.resolve_right (not_vanishes_of_one hb), fun hab => hab.resolve_right hfinite⟩⟩

/-- One need not divide. -/
theorem spares_div_one (hb : b.isLiteral Scalar.one = true) : Spares collects (.binary () .div a b) a :=
  ⟨id, id, fun ha => EndlessFactor.endlessTerm ha, (defect_binary_le () .div a b).trans
    ⟨fun hab => hab.resolve_right (not_diverges_of_one hb), fun hab => hab.resolve_right (not_vanishes_of_one hb)⟩⟩

/-- **What an identity leaves has the defects** of the operator. -/
theorem spares_reduct {op : BinaryOp} {r : Reduct} (h : reduct? op a b = some r) :
    Spares collects (.binary () op a b) (r.result a b) := by
  cases op with
  | add =>
    simp only [reduct?] at h
    split_ifs at h with ha hb
    · cases h
      exact (spares_add_comm a b).trans (spares_sum_zero rfl ha)
    · cases h
      exact spares_sum_zero rfl hb
  | sub =>
    simp only [reduct?] at h
    split_ifs at h with hb
    cases h
    exact spares_sum_zero rfl hb
  | mul =>
    simp only [reduct?] at h
    split_ifs at h with ha hb
    · cases h
      exact (spares_mul_comm a b).trans (spares_mul_one ha)
    · cases h
      exact spares_mul_one hb
  | div =>
    simp only [reduct?] at h
    split_ifs at h with hb
    cases h
    exact spares_div_one hb
  | pow =>
    exact ⟨False.elim, False.elim, False.elim, (defect_binary_le () .pow a b).trans (Defect.undefinedIf_le False.elim)⟩
  | mod | comma => cases h

theorem spares_reduce : (reduceRule : Rule α).Spares collects := by
  intro b t u h
  cases t with
  | negate l t =>
    cases t with
    | negate k w =>
      cases h
      exact .mk id id id (le_refl _)
    | _ => cases h
  | binary l op x y =>
    rw [reduceRule] at h
    cases hr : reduct? op x y with
    | none =>
      rw [hr] at h
      cases h
    | some r =>
      rw [hr] at h
      have hu : r.result x y = u := by cases r <;> exact Option.some.inj h
      exact hu ▸ spares_reduct hr
  | _ => cases h

end Rules

/-! ## Turns -/

section Turns

variable [Scalar α]

/-- **A turn of a sum spares its defects.** -/
theorem spares_turn_sum {outer inner : BinaryOp} {inChain : Bool} {a b c : Term α} {t : Turn}
    (houter : outer.isAdditive = true) (h : turn? outer inner inChain = some t) :
    Spares collects (.binary () outer a (.binary () inner b c)) (t.tree () () a b c) := by
  have hboundless : (Tree.binary () outer a (.binary () inner b c)).Boundless → (t.tree () () a b c).Boundless := by
    match outer, inner, inChain, h with
    | .add, .add, false, rfl | .add, .add, true, rfl | .sub, .sub, false, rfl | .sub, .sub, true, rfl
    | .add, .sub, false, rfl | .add, .sub, true, rfl | .sub, .add, false, rfl | .sub, .add, true, rfl =>
      simp only [Turn.tree, Boundless, BinaryOp.Spreads]
      tauto
  have hendless : (Tree.binary () outer a (.binary () inner b c)).EndlessTerm → (t.tree () () a b c).EndlessTerm := by
    match outer, inner, inChain, h with
    | .add, .add, false, rfl | .add, .add, true, rfl | .sub, .sub, false, rfl | .sub, .sub, true, rfl
    | .add, .sub, false, rfl | .add, .sub, true, rfl | .sub, .add, false, rfl | .sub, .add, true, rfl =>
      simp only [Turn.tree, EndlessTerm]
      tauto
  refine ⟨hboundless, fun h => (not_endlessFactor_of_additive houter h).elim, hendless, ?_⟩
  cases collects with
  | true =>
    -- Nothing counts but what cannot cancel.
    rw [defect_sum (show (true && outer.isAdditive) = true from houter)]
    exact (lastingDefect_mono hboundless hendless).trans (lastingDefect_le _)
  | false =>
    match outer, inner, inChain, h with
    | .add, .add, true, rfl | .sub, .sub, true, rfl | .add, .sub, true, rfl | .sub, .add, false, rfl
    | .sub, .add, true, rfl => exact BinaryOp.sum_assoc_le
    | .add, .add, false, rfl | .add, .sub, false, rfl => exact BinaryOp.sum_comm_le
    | .sub, .sub, false, rfl => exact BinaryOp.sum_comm_le.trans (BinaryOp.defect_mono BinaryOp.sum_comm_le le_rfl)

/-- **A turn of a product spares its defects**: where a divisor of a divisor vanishes, the new product vanishes or
diverges as the old one does. -/
theorem spares_turn_product {outer inner : BinaryOp} {inChain : Bool} {a b c : Term α} {t : Turn}
    (houter : outer.isMultiplicative = true) (h : turn? outer inner inChain = some t) :
    Spares collects (.binary () outer a (.binary () inner b c)) (t.tree () () a b c) := by
  match outer, inner, inChain, h with
  | .mul, .mul, false, rfl | .mul, .mul, true, rfl | .mul, .div, false, rfl | .mul, .div, true, rfl
  | .div, .mul, false, rfl | .div, .mul, true, rfl | .div, .div, false, rfl | .div, .div, true, rfl =>
    constructor
    · simp only [Turn.tree, Boundless, BinaryOp.Spreads]
      tauto
    · simp only [Turn.tree, EndlessFactor]
      tauto
    · simp only [Turn.tree, EndlessTerm, EndlessFactor]
      tauto
    · simp only [Turn.tree, Tree.defect, BinaryOp.defect, BinaryOp.isAdditive, Bool.and_false, Bool.false_eq_true,
        if_false]
      constructor <;> dsimp only <;> tauto

/-- **A turn spares defects.** -/
theorem spares_turn {outer inner : BinaryOp} {inChain : Bool} {a b c : Term α} {t : Turn}
    (h : turn? outer inner inChain = some t) :
    Spares collects (.binary () outer a (.binary () inner b c)) (t.tree () () a b c) := by
  rcases isAdditive_or_isMultiplicative_of_turn? h with houter | houter
  · exact spares_turn_sum houter h
  · exact spares_turn_product houter h

theorem spares_turnAll (outer : BinaryOp) (a r : Term α) :
    Spares collects (.binary () outer a r)
      (.binary () (turnAll outer a r).op (turnAll outer a r).left (turnAll outer a r).right) := by
  fun_induction turnAll outer a r with
  | case1 outer a l inner b c o i h r ih | case2 outer a l inner b c o i h r ih => exact (spares_turn h).trans ih
  | case3 outer a l inner b c o i h | case4 outer a l inner b c o i h => exact spares_turn h
  | _ => exact .refl _

/-- One sweep of turns spares defects. -/
theorem spares_sweeps :
    (∀ t : Term α, Spares collects t (sweep t).1) ∧
      ∀ ts : List (Term α), List.Forall₂ (Spares collects) ts (sweepAll ts).1 := by
  apply sweep.mutual_induct
  case case1 | case2 | case3 =>
    intros
    rw [sweep]
    exact .refl _
  case case4 =>
    intro l t u n _ ih
    rw [sweep_negate]
    exact ih.negate
  case case5 =>
    intro l op a b r _ u m _ w n _ ihl ihr
    rw [sweep_binary]
    exact (spares_turnAll op a b).trans (.binary _ ihl ihr)
  case case6 =>
    intro l items us n _ ih
    rw [sweep_list]
    exact .list ih
  case case7 =>
    rw [sweepAll]
    exact .nil
  case case8 =>
    intro t ts u m _ us n _ iht ihts
    rw [sweepAll_cons]
    exact .cons iht ihts

/-- **Sweeps spare defects**, however many there are. -/
theorem spares_sweepUntil (fuel : Nat) (t : Term α) (n : Nat) : Spares collects t (sweepUntil fuel t n).1 := by
  fun_induction sweepUntil fuel t n with
  | case1 => exact .refl _
  | case2 fuel t n u h =>
    have hsweep : Spares collects t (sweep t).1 := spares_sweeps.1 t
    rwa [h] at hsweep
  | case3 fuel t n u m h ih =>
    have hsweep : Spares collects t (sweep t).1 := spares_sweeps.1 t
    rw [h] at hsweep
    exact hsweep.trans ih

end Turns

end Rewrite

end SignalFlow
