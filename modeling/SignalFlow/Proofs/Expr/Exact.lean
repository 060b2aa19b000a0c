import Mathlib.Algebra.Field.Basic
import Mathlib.Algebra.Field.Rat
import SignalFlow.Proofs.Expr.Value

/-!
# Exact arithmetic

The program computes with doubles, while what an expression means is a matter of exact numbers. A `Reading` gives every
literal a number of a commutative ring; `Reading.value` evaluates an expression with its literals read and its operators
those of the ring (`Scalar.Exact`), or of a field (`Scalar.ExactField`). Joining expressions by `+`, `-`, `*` and `/`
then computes sums, differences, products and quotients (`value_add` and its siblings).

The rational numbers are an instance (`Rat.instScalar`).
-/

namespace SignalFlow

/-- **Exact arithmetic in a commutative ring.** Powers, remainders and infinity may mean anything. -/
class Scalar.Exact (R : Type) [CommRing R] [Scalar R] : Prop where
  neg_eq (a : R) : Scalar.neg a = -a
  add_eq (a b : R) : Scalar.add a b = a + b
  sub_eq (a b : R) : Scalar.sub a b = a - b
  mul_eq (a b : R) : Scalar.mul a b = a * b

/-- **Exact arithmetic in a field.** Division by zero may mean anything. -/
class Scalar.ExactField (K : Type) [Field K] [Scalar K] : Prop extends Scalar.Exact K where
  div_eq (a b : K) : b ≠ 0 → Scalar.div a b = a / b

/-! ## Reading literals -/

namespace Tree

variable {ι α β : Type}

mutual

/-- The same tree with other literals. -/
def mapLiterals (f : α → β) : Tree ι α → Tree ι β
  | .literal l v => .literal l (f v)
  | .var l name => .var l name
  | .infinity l => .infinity l
  | .negate l t => .negate l (t.mapLiterals f)
  | .binary l op a b => .binary l op (a.mapLiterals f) (b.mapLiterals f)
  | .list l items => .list l (mapLiteralsAll f items)

/-- The same trees with other literals. -/
def mapLiteralsAll (f : α → β) : List (Tree ι α) → List (Tree ι β)
  | [] => []
  | t :: ts => t.mapLiterals f :: mapLiteralsAll f ts

end

mutual

/-- Literals do not matter for the places of nodes. -/
theorem place_mapLiterals (f : α → β) (t : Tree ι α) (s : Slots) :
    (t.mapLiterals f).place s = ((t.place s).1.mapLiterals f, (t.place s).2) := by
  match t with
  | .literal _ _ | .var _ _ | .infinity _ => rfl
  | .negate _ t => simp only [mapLiterals, place, place_mapLiterals f t s]
  | .binary _ op a b => simp only [mapLiterals, place, place_mapLiterals f a s, place_mapLiterals f b]
  | .list _ items => simp only [mapLiterals, place, placeAll_mapLiterals f items s]

theorem placeAll_mapLiterals (f : α → β) (ts : List (Tree ι α)) (s : Slots) :
    placeAll (mapLiteralsAll f ts) s = (mapLiteralsAll f (placeAll ts s).1, (placeAll ts s).2) := by
  match ts with
  | [] => rfl
  | t :: ts => simp only [mapLiteralsAll, placeAll, place_mapLiterals f t s, placeAll_mapLiterals f ts]

end

end Tree

namespace Expr

variable {α β : Type}

/-- The same expression with other literals. -/
def mapLiterals (f : α → β) (e : Expr α) : Expr β where
  tree := e.tree.mapLiterals f
  detached := e.detached.map (Tree.mapLiterals f)
  slots := e.slots

theorem mapLiterals_literal (f : α → β) (v : α) : (literal v).mapLiterals f = literal (f v) := rfl

theorem mapLiterals_binary (f : α → β) (op : BinaryOp) (e e' : Expr α) :
    (binary op e e').mapLiterals f = binary op (e.mapLiterals f) (e'.mapLiterals f) := by
  simp only [mapLiterals, binary, Tree.place_mapLiterals, Tree.mapLiterals]

end Expr

/-- **A reading of literals as exact numbers**: equal literals are read alike, and the literals `0` and `1` as what they
say. -/
structure Reading (α R : Type) [Scalar α] [CommRing R] where
  read : α → R
  read_eq_of_eq {v w : α} : Scalar.eq v w = true → read v = read w
  read_zero : read Scalar.zero = 0
  read_one : read Scalar.one = 1

namespace Reading

variable {α R : Type} [Scalar α] [CommRing R] [Scalar R] (r : Reading α R) (T : Bindings R)

/-- **The value of an expression** whose literals are read as exact numbers. -/
def value (e : Expr α) : Except ExprError R := (e.mapLiterals r.read).evaluate T

variable {r T} {e f : Expr α} {x y : R}

theorem value_literal (r : Reading α R) (T : Bindings R) (v : α) : r.value T (Expr.literal v) = .ok (r.read v) := by
  rw [value, Expr.mapLiterals_literal, Expr.evaluate_literal]

theorem value_zero (r : Reading α R) (T : Bindings R) : r.value T (Expr.literal Scalar.zero) = .ok 0 := by
  rw [value_literal, r.read_zero]

theorem value_one (r : Reading α R) (T : Bindings R) : r.value T (Expr.literal Scalar.one) = .ok 1 := by
  rw [value_literal, r.read_one]

/-- What is recognized as the literal `1` has the value 1. -/
theorem value_of_isLiteral_one (h : e.tree.isLiteral Scalar.one = true) : r.value T e = .ok 1 := by
  rw [value, Expr.evaluate_eq]
  unfold Expr.mapLiterals
  cases ht : e.tree with
  | literal l v =>
    rw [ht] at h
    show Except.ok (r.read v) = _
    rw [r.read_eq_of_eq h, r.read_one]
  | _ => rw [ht] at h; cases h

/-- An operator acts on the values of its operands. -/
theorem value_binary (op : BinaryOp) (he : r.value T e = .ok x) (hf : r.value T f = .ok y) :
    r.value T (.binary op e f) = .ok (op.apply x y) := by
  rw [value] at he hf
  rw [value, Expr.mapLiterals_binary, Expr.evaluate_binary, he, hf]
  rfl

section Ring

variable [Scalar.Exact R]

theorem value_add (he : r.value T e = .ok x) (hf : r.value T f = .ok y) :
    r.value T (.binary .add e f) = .ok (x + y) := by
  rw [value_binary .add he hf, BinaryOp.apply, Scalar.Exact.add_eq]

theorem value_sub (he : r.value T e = .ok x) (hf : r.value T f = .ok y) :
    r.value T (.binary .sub e f) = .ok (x - y) := by
  rw [value_binary .sub he hf, BinaryOp.apply, Scalar.Exact.sub_eq]

theorem value_mul (he : r.value T e = .ok x) (hf : r.value T f = .ok y) :
    r.value T (.binary .mul e f) = .ok (x * y) := by
  rw [value_binary .mul he hf, BinaryOp.apply, Scalar.Exact.mul_eq]

end Ring

theorem value_div {K : Type} [Field K] [Scalar K] [Scalar.ExactField K] {r : Reading α K} {T : Bindings K} {x y : K}
    (he : r.value T e = .ok x) (hf : r.value T f = .ok y) (hy : y ≠ 0) :
    r.value T (.binary .div e f) = .ok (x / y) := by
  rw [value_binary .div he hf, BinaryOp.apply, Scalar.ExactField.div_eq x y hy]

end Reading

/-! ## The rational numbers -/

/-- **Rational arithmetic.** Infinity and powers whose exponent is not an integer are 0. -/
instance Rat.instScalar : Scalar ℚ where
  zero := 0
  one := 1
  undefined := 0
  neg a := -a
  abs a := if a < 0 then -a else a
  add a b := a + b
  sub a b := a - b
  mul a b := a * b
  div a b := a / b
  pow a b := if b.den = 1 then a ^ b.num else 0
  mod a b := a - b * ((a / b).num.tdiv (a / b).den : ℤ)
  eq a b := decide (a = b)
  lt a b := decide (a < b)
  isNaN _ := false
  isFinite _ := true
  isSigned a := decide (a < 0)
  ofDecimal digits exponent := digits * (10 : ℚ) ^ exponent
  text a := toString a

instance Rat.instExactField : Scalar.ExactField ℚ where
  neg_eq _ := rfl
  add_eq _ _ := rfl
  sub_eq _ _ := rfl
  mul_eq _ _ := rfl
  div_eq _ _ _ := rfl

/-- Rational literals mean themselves. -/
def Reading.rational : Reading ℚ ℚ where
  read v := v
  read_eq_of_eq h := of_decide_eq_true h
  read_zero := rfl
  read_one := rfl

end SignalFlow
