import SignalFlow.Proofs.Rewrite.Graded
import SignalFlow.Proofs.Rewrite.Rules

/-!
# Quotients and differences are rewritten in one pass

The factor made of a divisor and the summand made of a subtrahend have as many quotients and differences as these, and
in exact arithmetic they yield the reciprocal and the opposite (`yields_inverseTerm`, `yields_oppositeTerm`). So a pass
counts the quotients and differences of a tree, leaves none, and keeps what the tree yields
(`Expr.eliminateQuotients_complete`).

The literals of an expression are read as numbers of a field with powers (`Scalar.PowerField`); the reading may be that
of doubles, of which only the sign is changed.
-/

namespace SignalFlow

open SignalFlow.Tree Rewrite

/-- **Exact arithmetic in a field with powers** that obey two laws. Infinity, remainders and powers otherwise may mean
anything, and so may a quotient by zero. -/
class Scalar.PowerField (K : Type) [Field K] [Scalar K] : Prop extends Scalar.ExactField K where
  pow_one (a : K) : Scalar.pow a 1 = a
  pow_neg (a c : K) : Scalar.pow a c ≠ 0 → Scalar.pow a (-c) = 1 / Scalar.pow a c

instance Scalar.OrderedField.toPowerField {K : Type} [Field K] [LinearOrder K] [Scalar K] [Scalar.OrderedField K] :
    Scalar.PowerField K where
  pow_one := Scalar.OrderedField.pow_one
  pow_neg := Scalar.OrderedField.pow_neg

/-- A power of a rational number whose exponent is not an integer is 0. -/
instance Rat.instPowerField : Scalar.PowerField ℚ where
  pow_one a := zpow_one a
  pow_neg a c h := by
    change (if c.den = 1 then a ^ c.num else 0) ≠ 0 at h
    change (if (-c).den = 1 then a ^ (-c).num else 0) = 1 / if c.den = 1 then a ^ c.num else 0
    have hden : c.den = 1 := by
      by_contra hden
      exact h (if_neg hden)
    rw [Rat.neg_den, Rat.neg_num, if_pos hden, if_pos hden, zpow_neg, one_div]

variable {ι α : Type}

/-! ## The number of quotients and differences -/

/-- The operators that undo products and sums. -/
def BinaryOp.isInverse : BinaryOp → Bool
  | .div | .sub => true
  | _ => false

namespace Tree

/-- **The number of quotients and differences** in a tree. -/
def inverses (t : Tree ι α) : Nat := t.preorder.countP fun u => u.op?.any BinaryOp.isInverse

theorem inverses_eq (t : Tree ι α) :
    t.inverses = (t.children.map inverses).sum + if t.op?.any BinaryOp.isInverse then 1 else 0 := by
  rw [inverses, preorder_eq, List.countP_cons, List.countP_flatMap]
  rfl

theorem inverses_negate (l : ι) (t : Tree ι α) : (Tree.negate l t).inverses = t.inverses := by
  rw [inverses_eq]
  simp [children, op?]

theorem inverses_binary (l : ι) (op : BinaryOp) (a b : Tree ι α) :
    (Tree.binary l op a b).inverses = a.inverses + b.inverses + if op.isInverse then 1 else 0 := by
  rw [inverses_eq, children, List.map_cons, List.map_singleton, List.sum_cons, List.sum_singleton]
  rfl

theorem inverses_list (l : ι) (items : List (Tree ι α)) :
    (Tree.list l items).inverses = (items.map inverses).sum := by
  rw [inverses_eq]
  simp [children, op?]

theorem inverses_term (t : Tree ι α) : t.term.inverses = t.inverses := by
  rw [inverses, preorder_term, List.countP_map, inverses]
  exact List.countP_congr fun u _ => by rw [Function.comp, op?_term]

/-- Each change removes a quotient or a difference. -/
theorem graded_inverses : Graded fun n (t u : Term α) => u.inverses + n = t.inverses where
  refl _ := rfl
  trans htu huw := by omega
  negate h := by rwa [inverses_negate, inverses_negate]
  binary op ha hb := by
    rw [inverses_binary, inverses_binary]
    omega
  list h := by
    rw [inverses_list, inverses_list]
    induction h with
    | nil => rfl
    | cons ht _ ih =>
      rw [List.map_cons, List.sum_cons, List.map_cons, List.sum_cons]
      omega

end Tree

namespace Rewrite

variable [Scalar α]

/-- The factor made of a divisor has the quotients and differences of it. -/
theorem inverses_inverseTerm (t : Term α) : (inverseTerm t).inverses = t.inverses := by
  fun_cases inverseTerm t <;> simp [inverses_binary, inverses_negate, inverses_eq (Tree.literal _ _), children, op?,
    BinaryOp.isInverse]

theorem inverses_oppositeTerm (t : Term α) : (oppositeTerm t).inverses = t.inverses := by
  fun_cases oppositeTerm t <;> simp [inverses_binary, inverses_eq (Tree.literal _ _), children, op?,
    BinaryOp.isInverse]

/-- **What is rewritten** is a quotient or a difference. -/
theorem flattenRule_eq_some {b : Bool} {t u : Term α} (h : flattenRule b t = some u) : ∃ x y,
    t = .binary () .div x y ∧ u = .binary () .mul x (inverseTerm y) ∨
      t = .binary () .sub x y ∧ u = .binary () .add x (oppositeTerm y) := by
  cases t with
  | binary l op x y =>
    cases op with
    | div => exact ⟨x, y, .inl ⟨rfl, (Option.some.inj h).symm⟩⟩
    | sub => exact ⟨x, y, .inr ⟨rfl, (Option.some.inj h).symm⟩⟩
    | _ => cases h
  | _ => cases h

theorem inverses_flatten : (flattenRule : Rule α).Makes fun n t u => u.inverses + n = t.inverses := by
  intro b t u h
  obtain ⟨x, y, ⟨rfl, rfl⟩ | ⟨rfl, rfl⟩⟩ := flattenRule_eq_some h
  · rw [inverses_binary, inverses_binary, inverses_inverseTerm]
    rfl
  · rw [inverses_binary, inverses_binary, inverses_oppositeTerm]
    rfl

theorem still_flatten {t : Term α} : flattenRule.Still t ↔ ¬ t.op?.any BinaryOp.isInverse = true := by
  constructor
  · intro h hop
    have hnone := h false
    cases t with
    | binary l op a b =>
      cases op with
      | div | sub => cases hnone
      | _ => cases hop
    | _ => cases hop
  · intro h b
    cases t with
    | binary l op x y =>
      cases op with
      | div | sub => exact absurd rfl h
      | _ => rfl
    | _ => rfl

/-- **The rule is still everywhere** in a tree without quotients and differences. -/
theorem everywhere_still_flatten {t : Term α} : t.Everywhere flattenRule.Still ↔ t.inverses = 0 := by
  rw [inverses, List.countP_eq_zero]
  exact forall_congr' fun u => forall_congr' fun _ => still_flatten

theorem finishes_flatten : (flattenRule : Rule α).Finishes where
  still h _ := h
  result ht h := by
    obtain ⟨x, y, ⟨rfl, rfl⟩ | ⟨rfl, rfl⟩⟩ := flattenRule_eq_some h
    all_goals
      have hx := everywhere_still_flatten.mp (ht x List.mem_cons_self)
      have hy := everywhere_still_flatten.mp (ht y (List.mem_cons_of_mem _ List.mem_cons_self))
      rw [everywhere_still_flatten, inverses_binary]
    · rw [inverses_inverseTerm, hx, hy]
      rfl
    · rw [inverses_oppositeTerm, hx, hy]
      rfl

/-! ## What the factors and summands yield -/

section Values

variable {K : Type} [Field K] [Scalar K] {load : String → Except ExprError K} {r : Reading α K}

/-- **The factor made of a divisor yields the reciprocal.** -/
theorem yields_inverseTerm [Scalar.PowerField K] (hneg : ∀ v, r.read (Scalar.neg v) = -r.read v) {t : Term α} {y : K}
    (ht : (t.mapLiterals r.read).Yields load y) (hy : y ≠ 0) :
    ((inverseTerm t).mapLiterals r.read).Yields load (1 / y) := by
  fun_cases inverseTerm t with
  | case1 l base k c =>
    obtain ⟨x, z, hx, hz, rfl⟩ := yields_pow.mp ht
    obtain rfl := yields_literal.mp hz
    refine yields_pow.mpr ⟨x, _, hx, yields_literal.mpr rfl, ?_⟩
    rw [hneg, Scalar.PowerField.pow_neg x _ hy]
  | case2 l base exponent hexponent =>
    obtain ⟨x, z, hx, hz, rfl⟩ := yields_pow.mp ht
    exact yields_pow.mpr ⟨x, -z, hx, yields_neg.mpr ⟨z, hz, rfl⟩, (Scalar.PowerField.pow_neg x z hy).symm⟩
  | case3 =>
    refine yields_pow.mpr ⟨y, _, ht, yields_literal.mpr rfl, ?_⟩
    have hone : Scalar.pow y (1 : K) = y := Scalar.PowerField.pow_one y
    have hpow := Scalar.PowerField.pow_neg y (1 : K) (hone.symm ▸ hy)
    rw [Scalar.minusOne, hneg, r.read_one, hpow, hone]

/-- **The summand made of a subtrahend yields the opposite.** -/
theorem yields_oppositeTerm [Scalar.ExactField K] (hneg : ∀ v, r.read (Scalar.neg v) = -r.read v) {t : Term α} {y : K}
    (ht : (t.mapLiterals r.read).Yields load y) : ((oppositeTerm t).mapLiterals r.read).Yields load (-y) := by
  fun_cases oppositeTerm t with
  | case1 l k v b =>
    obtain ⟨x, z, hx, hz, rfl⟩ := yields_mul.mp ht
    obtain rfl := yields_literal.mp hx
    exact yields_mul.mpr ⟨_, z, yields_literal.mpr rfl, hz, by rw [hneg, neg_mul]⟩
  | case2 l a k v =>
    obtain ⟨x, z, hx, hz, rfl⟩ := yields_mul.mp ht
    obtain rfl := yields_literal.mp hz
    exact yields_mul.mpr ⟨x, _, hx, yields_literal.mpr rfl, by rw [hneg, mul_neg]⟩
  | case3 =>
    refine yields_mul.mpr ⟨y, _, ht, yields_literal.mpr rfl, ?_⟩
    rw [Scalar.minusOne, hneg, r.read_one, mul_neg_one]

/-- A change keeps what the tree yields when its literals are read as numbers. -/
theorem keeps_flatten [Scalar.PowerField K] (hneg : ∀ v, r.read (Scalar.neg v) = -r.read v) :
    (flattenRule : Rule α).Makes fun _ t u => Keeps load (t.mapLiterals r.read) (u.mapLiterals r.read) := by
  intro b t u h v hv
  obtain ⟨x, y, ⟨rfl, rfl⟩ | ⟨rfl, rfl⟩⟩ := flattenRule_eq_some h
  · obtain ⟨p, q, hp, hq, hzero, rfl⟩ := yields_div.mp hv
    exact yields_mul.mpr ⟨p, 1 / q, hp, yields_inverseTerm hneg hq hzero, by rw [mul_one_div]⟩
  · obtain ⟨p, q, hp, hq, rfl⟩ := yields_sub.mp hv
    exact yields_add.mpr ⟨p, -q, hp, yields_oppositeTerm hneg hq, sub_eq_add_neg p q⟩

end Values

end Rewrite

namespace Tree

variable {K : Type} [Field K] [Scalar K]

theorem mapLiteralsAll_eq {β : Type} (f : α → β) (ts : List (Tree ι α)) :
    mapLiteralsAll f ts = ts.map (mapLiterals f) := by
  induction ts with
  | nil => rfl
  | cons t ts ih => rw [mapLiteralsAll, ih, List.map_cons]

theorem graded_keeps (load : String → Except ExprError K) (f : α → K) :
    Graded fun _ (t u : Term α) => Keeps load (t.mapLiterals f) (u.mapLiterals f) where
  refl t := Keeps.refl _
  trans := Keeps.trans
  negate := Keeps.negate
  binary _ ha hb := Keeps.binary ha hb
  list h := by
    rw [mapLiterals, mapLiterals, mapLiteralsAll_eq, mapLiteralsAll_eq]
    exact Keeps.list (List.forall₂_map_left_iff.mpr (List.forall₂_map_right_iff.mpr h.forall₂))

/-- Reading the literals of a bare tree. -/
theorem term_mapLiterals {β : Type} (f : α → β) (t : Tree ι α) : (t.mapLiterals f).term = t.term.mapLiterals f := by
  induction t using nodeInduction with
  | literal | var | infinity => rfl
  | negate l t ih => exact congrArg (Tree.negate ()) ih
  | binary l op a b iha ihb => exact congrArg₂ (Tree.binary () op) iha ihb
  | list l items ih =>
    rw [mapLiterals, term_list, term_list, mapLiterals, mapLiteralsAll_eq, mapLiteralsAll_eq, List.map_map,
      List.map_map]
    exact congrArg (Tree.list ()) (List.map_congr_left ih)

end Tree

namespace Expr

variable [Scalar α]

/-- **One pass rewrites all quotients and differences, and keeps values.** It counts them and leaves none, and a second
pass counts nothing and changes nothing; on the arena of the expression both run to their end. If the literals are read
as numbers of a field in which opposite exponents give reciprocals, then whenever the expression evaluates without
infinity and without a quotient by zero, so does the result, to the same number. -/
theorem eliminateQuotients_complete (e : Expr α) (he : e.Whole) :
    let f := e.eliminateQuotients.1
    let n := e.eliminateQuotients.2
    n = e.tree.inverses ∧
      (∀ u ∈ f.tree.preorder, u.op? ≠ some .div ∧ u.op? ≠ some .sub) ∧
      f.eliminateQuotients = (f, 0) ∧
      Arena.eliminateQuotients.on e.arena = .ok (.ok n, f.arena) ∧ f.Whole ∧
      Arena.eliminateQuotients.on f.arena = .ok (.ok 0, f.arena) ∧
      ∀ (K : Type) [Field K] [Scalar K] [Scalar.PowerField K] (r : Reading α K),
        (∀ v, r.read (Scalar.neg v) = -r.read v) → ∀ (T : Bindings K) (v : K),
        (e.tree.mapLiterals r.read).Regular T.valueOf → r.value T e = .ok v →
          (f.tree.mapLiterals r.read).Regular T.valueOf ∧ r.value T f = .ok v := by
  intro f n
  have hrule : ∀ t : Term α, Pass.eliminateQuotients.onTerm t = rewriteUp flattenRule false t := fun _ => rfl
  obtain ⟨hstill, hagain⟩ := Pass.finishes hrule finishes_flatten e
  have hcount : f.tree.term.inverses + n = e.tree.term.inverses :=
    Pass.graded hrule graded_inverses inverses_flatten e
  have hnone : f.tree.term.inverses = 0 := everywhere_still_flatten.mp (everywhere_term.mpr hstill)
  rw [hnone, Nat.zero_add, inverses_term] at hcount
  obtain ⟨hfirst, hwhole⟩ := (Arena.pass_refines .eliminateQuotients e).on he
  have hsecond := ((Arena.pass_refines .eliminateQuotients f).on hwhole).1
  rw [show Pass.eliminateQuotients.rewrite f = (f, 0) from hagain] at hsecond
  refine ⟨hcount, fun u hu => ?_, hagain, hfirst, hwhole, hsecond, ?_⟩
  · have hop := still_flatten.mp (hstill u hu)
    rw [op?_term] at hop
    exact ⟨fun hdiv => hop (by rw [hdiv]; rfl), fun hsub => hop (by rw [hsub]; rfl)⟩
  · intro K _ _ _ r hneg T v hregular hvalue
    have hkeeps : Keeps T.valueOf (e.tree.term.mapLiterals r.read) (f.tree.term.mapLiterals r.read) :=
      Pass.graded hrule (graded_keeps T.valueOf r.read) (keeps_flatten hneg) e
    rw [← term_mapLiterals, ← term_mapLiterals] at hkeeps
    have hevaluate : ∀ g : Expr α, r.value T g = (g.tree.mapLiterals r.read).value T.valueOf := fun g => by
      rw [Reading.value, evaluate_eq]
      rfl
    rw [hevaluate] at hvalue ⊢
    exact yields_term.mp (hkeeps v (yields_term.mpr ⟨hregular, hvalue⟩))

/-- With `x = 2`, `6 / x - 4 * x` is -5, and so is `6 * x^(-1) + (-4) * x`. -/
theorem eliminateQuotients_complete_difference :
    let e : Expr ℚ := ofTree (.binary () .sub (.binary () .div (.literal () 6) (.var () "x"))
      (.binary () .mul (.literal () 4) (.var () "x")) : Term ℚ)
    let f := e.eliminateQuotients.1
    let T : Bindings ℚ := ⟨[("x", .value 2)]⟩
    e.Whole ∧ Arena.eliminateQuotients.on e.arena = .ok (.ok 2, f.arena) ∧
      Reading.rational.value T e = .ok (-5) ∧ Reading.rational.value T f = .ok (-5) := by
  intro e f T
  have he : e.Whole := whole_ofTerm _
  have hx : ∀ l : Id, (Tree.var l "x" : Tree Id ℚ).Yields T.valueOf 2 := fun _ =>
    yields_var.mpr (Bindings.valueOf_value rfl)
  have hyields : (e.tree.mapLiterals Reading.rational.read).Yields T.valueOf (-5) := by
    refine yields_sub.mpr ⟨3, 8, ?_, ?_, by norm_num⟩
    · exact yields_div.mpr ⟨6, 2, yields_literal.mpr rfl, hx _, two_ne_zero, by norm_num⟩
    · exact yields_mul.mpr ⟨4, 2, yields_literal.mpr rfl, hx _, by norm_num⟩
  have hvalue : Reading.rational.value T e = .ok (-5) := by
    rw [Reading.value, evaluate_eq]
    exact hyields.2
  obtain ⟨-, -, -, hrun, -, -, hkeeps⟩ := eliminateQuotients_complete e he
  exact ⟨he, hrun, hvalue, (hkeeps ℚ Reading.rational (fun _ => rfl) T (-5) hyields.1 hvalue).2⟩

end Expr

end SignalFlow
