import SignalFlow.Proofs.Rewrite.Cost
import SignalFlow.Proofs.Rewrite.Graded

/-!
# Folding and identities are done in one pass

Folding replaces an operator by a literal, and an identity replaces a node by an operand of it or by a literal, so
neither makes anything that is left to do (`finishes_fold`, `finishes_reduce`). After one pass of folding an operator on
literals is a division by a literal zero or has no finite value, and no value has changed, whatever the arithmetic is
(`Expr.foldConstants_exact`). After one pass of identities none is left, and each has removed two nodes and added no
variable (`Expr.eliminateIdentities_complete`).
-/

namespace SignalFlow

open SignalFlow.Tree Rewrite

variable {ι α : Type} [Scalar α]

/-! ## Folding -/

/-- A tree has the value of another, an error included. -/
theorem Tree.graded_value (load : String → Except ExprError α) :
    Graded fun _ (t u : Term α) => u.value load = t.value load where
  refl _ := rfl
  trans htu huw := huw.trans htu
  negate h := by simp only [value, h]
  binary op ha hb := by simp only [value, ha, hb]
  list h := by
    have hall : ∀ {ts us : List (Term α)}, List.Forall₂ (fun t u => u.value load = t.value load) ts us →
        valueAll load us = valueAll load ts := by
      intro ts us h
      induction h with
      | nil => rfl
      | cons ht _ ih => rw [valueAll, valueAll, ht, ih]
    simp only [value, hall h.forall₂]

namespace Rewrite

/-- **Folding does not change values**, whatever the arithmetic is. -/
theorem value_fold (load : String → Except ExprError α) :
    (foldRule : Rule α).Makes fun _ t u => u.value load = t.value load := by
  intro b t u h
  obtain ⟨v, hv, rfl⟩ := foldRule_eq_some h
  exact (value_of_literalValue hv load).symm

theorem finishes_fold : (foldRule : Rule α).Finishes where
  still h _ := h
  result _ h := by
    obtain ⟨v, -, rfl⟩ := foldRule_eq_some h
    exact everywhere_literal.mpr fun _ => rfl

/-- Where folding is still, a literal is not negated unless the result is not finite. -/
theorem negate_of_still {l k : ι} {v : α} (h : foldRule.Still (Tree.negate l (.literal k v) : Tree ι α).term) :
    Scalar.isFinite (Scalar.neg v) = false := by
  have hnone : (some (Scalar.neg v)).filter Scalar.isFinite = none := Option.map_eq_none_iff.mp (h false)
  exact Bool.eq_false_iff.mpr fun hfinite => by
    rw [Option.filter_some, if_pos hfinite] at hnone
    cases hnone

/-- Where folding is still, an operator on literals divides by zero or has no finite value. -/
theorem binary_of_still {l j k : ι} {op : BinaryOp} {v w : α}
    (h : foldRule.Still (Tree.binary l op (.literal j v) (.literal k w) : Tree ι α).term) :
    (op = .div ∨ op = .mod) ∧ Scalar.isZero w = true ∨ Scalar.isFinite (op.apply v w) = false := by
  have hnone : (if divides op && Scalar.isZero w then none else some (op.apply v w)).filter Scalar.isFinite = none :=
    Option.map_eq_none_iff.mp (h false)
  split at hnone
  · next hzero =>
    obtain ⟨hop, hw⟩ := Bool.and_eq_true_iff.mp hzero
    refine .inl ⟨?_, hw⟩
    cases op with
    | div => exact .inl rfl
    | mod => exact .inr rfl
    | _ => cases hop
  · exact .inr (Bool.eq_false_iff.mpr fun hfinite => by
      rw [Option.filter_some, if_pos hfinite] at hnone
      cases hnone)

end Rewrite

namespace Expr

/-- **Folding constants is exact, and one pass folds all there is.** With every table the expression evaluates as
before, to the same number or with the same error. Afterwards an operator of which all operands are literals is a
division or a remainder by zero, or its value is not finite; a second pass counts nothing and changes nothing. On the
arena of the expression both passes run to their end. -/
theorem foldConstants_exact (e : Expr α) :
    let f := e.foldConstants.1
    (∀ T : Bindings α, f.evaluate T = e.evaluate T) ∧
      (∀ u ∈ f.tree.preorder,
        (∀ l k v, u = .negate l (.literal k v) → Scalar.isFinite (Scalar.neg v) = false) ∧
        ∀ l op j v k w, u = .binary l op (.literal j v) (.literal k w) →
          (op = .div ∨ op = .mod) ∧ Scalar.isZero w = true ∨ Scalar.isFinite (op.apply v w) = false) ∧
      f.foldConstants = (f, 0) ∧
      (e.Whole → Arena.foldConstants.on e.arena = .ok (.ok e.foldConstants.2, f.arena) ∧
        Arena.foldConstants.on f.arena = .ok (.ok 0, f.arena)) := by
  intro f
  have hrule : ∀ t : Term α, Pass.foldConstants.onTerm t = rewriteUp foldRule false t := fun _ => rfl
  obtain ⟨hstill, hagain⟩ := Pass.finishes hrule finishes_fold e
  refine ⟨fun T => ?_, fun u hu => ⟨?_, ?_⟩, hagain, fun he => ?_⟩
  · have hvalue := Pass.graded hrule (graded_value T.valueOf) (value_fold T.valueOf) e
    rw [evaluate_eq, evaluate_eq, ← value_relabel _ (fun _ => ()) f.tree, ← value_relabel _ (fun _ => ()) e.tree]
    exact hvalue
  · rintro l k v rfl
    exact negate_of_still (hstill _ hu)
  · rintro l op j v k w rfl
    exact binary_of_still (hstill _ hu)
  · obtain ⟨hfirst, hwhole⟩ := (Arena.pass_refines .foldConstants e).on he
    have hsecond := ((Arena.pass_refines .foldConstants f).on hwhole).1
    rw [show Pass.foldConstants.rewrite f = (f, 0) from hagain] at hsecond
    exact ⟨hfirst, hsecond⟩

/-- In `-2 + 1 / 0` the sign goes and the quotient stays. -/
theorem foldConstants_exact_quotient :
    let e : Expr Rational := ofTree (.binary () .add (.negate () (.literal () 2))
      (.binary () .div (.literal () 1) (.literal () 0)) : Term Rational)
    let f := e.foldConstants.1
    e.Whole ∧ (∀ T : Bindings Rational, f.evaluate T = e.evaluate T) ∧ f.foldConstants = (f, 0) ∧
      Arena.foldConstants.on e.arena = .ok (.ok 1, f.arena) := by
  intro e f
  have he : e.Whole := whole_ofTerm _
  obtain ⟨hvalue, -, hagain, hrun⟩ := foldConstants_exact e
  exact ⟨he, hvalue, hagain, (hrun he).1⟩

end Expr

/-! ## Identities -/

/-- **The shapes that an identity removes.** -/
inductive Tree.IsIdentity : Tree ι α → Prop where
  | addZero {l : ι} {a b : Tree ι α} : b.isLiteral Scalar.zero = true → IsIdentity (.binary l .add a b)
  | zeroAdd {l : ι} {a b : Tree ι α} : a.isLiteral Scalar.zero = true → IsIdentity (.binary l .add a b)
  | subZero {l : ι} {a b : Tree ι α} : b.isLiteral Scalar.zero = true → IsIdentity (.binary l .sub a b)
  | mulOne {l : ι} {a b : Tree ι α} : b.isLiteral Scalar.one = true → IsIdentity (.binary l .mul a b)
  | oneMul {l : ι} {a b : Tree ι α} : a.isLiteral Scalar.one = true → IsIdentity (.binary l .mul a b)
  | divOne {l : ι} {a b : Tree ι α} : b.isLiteral Scalar.one = true → IsIdentity (.binary l .div a b)
  | powOne {l : ι} {a b : Tree ι α} : b.isLiteral Scalar.one = true → IsIdentity (.binary l .pow a b)
  | powZero {l : ι} {a b : Tree ι α} : b.isLiteral Scalar.zero = true → IsIdentity (.binary l .pow a b)
  | onePow {l : ι} {a b : Tree ι α} : a.isLiteral Scalar.one = true → IsIdentity (.binary l .pow a b)
  | negateTwice {l k : ι} {a : Tree ι α} : IsIdentity (.negate l (.negate k a))

namespace Rewrite

/-- Where an identity holds an operator reduces to something. -/
theorem reduct?_ne_none {l : ι} {op : BinaryOp} {a b : Tree ι α} (h : (Tree.binary l op a b).IsIdentity) :
    reduct? op a b ≠ none := by
  cases h with
  | addZero h | mulOne h | powOne h | powZero h | onePow h => rw [reduct?]; split_ifs <;> simp_all
  | zeroAdd h | subZero h | oneMul h | divOne h => rw [reduct?, if_pos h]; simp

/-- Where applying identities is still, none holds. -/
theorem not_isIdentity_of_still {t : Tree ι α} (h : reduceRule.Still t.term) : ¬ t.IsIdentity := by
  intro ht
  have hnone := h false
  cases t with
  | negate l t => cases ht; cases hnone
  | binary l op a b =>
    rw [term_binary, reduceRule, reduct?_term] at hnone
    cases hr : reduct? op a b with
    | none => exact reduct?_ne_none ht hr
    | some r => rw [hr] at hnone; cases r <;> cases hnone
  | _ => cases ht

theorem finishes_reduce : (reduceRule : Rule α).Finishes where
  still h _ := h
  result ht h := by
    rcases reduceRule_eq_some h with rfl | ⟨op, a, b, rfl, hu⟩
    · exact (everywhere_negate.mp (ht _ List.mem_cons_self)).2
    · have ha := ht a List.mem_cons_self
      have hb := ht b (List.mem_cons_of_mem _ List.mem_cons_self)
      cases hu with
      | zeroAdd | oneMul => exact hb
      | addZero | subZero | mulOne | divOne | powOne => exact ha
      | one => exact everywhere_literal.mpr fun _ => rfl

/-- **Each identity removes two nodes or more.** -/
theorem size_reduce : (reduceRule : Rule α).Makes fun n t u => u.size + 2 * n ≤ t.size := by
  intro b t u h
  rcases reduceRule_eq_some h with rfl | ⟨op, x, y, rfl, hu⟩
  · simp only [size]
    omega
  · have hx := size_pos x
    have hy := size_pos y
    cases hu <;> simp only [size] at hx hy ⊢ <;> omega

/-- An identity adds no variable. -/
theorem names_reduce : (reduceRule : Rule α).Makes fun _ t u => u.names.Sublist t.names := by
  intro b t u h
  rcases reduceRule_eq_some h with rfl | ⟨op, x, y, rfl, hu⟩
  · rw [names_negate, names_negate]
  · rw [names_binary]
    cases hu with
    | zeroAdd | oneMul => exact List.sublist_append_right _ _
    | addZero | subZero | mulOne | divOne | powOne => exact List.sublist_append_left _ _
    | one => exact List.nil_sublist _

end Rewrite

namespace Expr

/-- **One pass of identities removes all there are.** Afterwards no node has one of the ten shapes, also where the shape
arose in the pass; each change removed two nodes or more, no variable was added, and a second pass counts nothing and
changes nothing. On the arena of the expression both passes run to their end. -/
theorem eliminateIdentities_complete (e : Expr α) (he : e.Whole) :
    let f := e.eliminateIdentities.1
    let n := e.eliminateIdentities.2
    (∀ u ∈ f.tree.preorder, ¬ u.IsIdentity) ∧
      f.tree.size + 2 * n ≤ e.tree.size ∧
      f.tree.names.Sublist e.tree.names ∧
      f.eliminateIdentities = (f, 0) ∧
      Arena.eliminateIdentities.on e.arena = .ok (.ok n, f.arena) ∧ f.Whole ∧
      Arena.eliminateIdentities.on f.arena = .ok (.ok 0, f.arena) := by
  intro f n
  have hrule : ∀ t : Term α, Pass.eliminateIdentities.onTerm t = rewriteUp reduceRule false t := fun _ => rfl
  obtain ⟨hstill, hagain⟩ := Pass.finishes hrule finishes_reduce e
  have hsize := Pass.graded hrule (graded_size 2) size_reduce e
  have hnames := Pass.graded hrule graded_names names_reduce e
  rw [size_term, size_term] at hsize
  rw [names_term, names_term] at hnames
  obtain ⟨hfirst, hwhole⟩ := (Arena.pass_refines .eliminateIdentities e).on he
  have hsecond := ((Arena.pass_refines .eliminateIdentities f).on hwhole).1
  rw [show Pass.eliminateIdentities.rewrite f = (f, 0) from hagain] at hsecond
  exact ⟨fun u hu => not_isIdentity_of_still (hstill u hu), hsize, hnames, hagain, hfirst, hwhole, hsecond⟩

/-- In `--x * 1 + 0` each identity leaves the next one at the root, and a single node of seven stays. -/
theorem eliminateIdentities_complete_sum :
    let e : Expr Rational := ofTree (.binary () .add (.binary () .mul (.negate () (.negate () (.var () "x")))
      (.literal () 1)) (.literal () 0) : Term Rational)
    let f := e.eliminateIdentities.1
    e.Whole ∧ f.tree.size + 2 * 3 ≤ e.tree.size ∧ f.eliminateIdentities = (f, 0) ∧
      Arena.eliminateIdentities.on e.arena = .ok (.ok 3, f.arena) := by
  intro e f
  have he : e.Whole := whole_ofTerm _
  obtain ⟨-, hsize, -, hagain, hrun, -, -⟩ := eliminateIdentities_complete e he
  exact ⟨he, hsize, hagain, hrun⟩

end Expr

end SignalFlow
