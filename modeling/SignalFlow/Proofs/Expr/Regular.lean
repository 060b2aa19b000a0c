import Mathlib.Algebra.Order.Field.Rat
import Mathlib.Data.List.Forall2
import SignalFlow.Proofs.Expr.Exact

/-!
# Regular evaluation in an ordered field

In exact arithmetic infinity and a quotient by zero have no value. A tree is `Regular` when its evaluation meets
neither, and it `Yields` a value when it is regular and evaluates to it. What a tree yields is said by one equivalence
per constructor (`yields_negate`, `yields_binary` and its siblings), and proofs about values use these only.

A rewrite `Keeps` a tree when the new tree yields whatever the old one does; this is a congruence (`Keeps.binary`,
`Keeps.list`) and holds of trees that differ in their labels (`Keeps.of_term_eq`).
-/

namespace SignalFlow

/-! ## Ordered fields -/

/-- **Exact arithmetic in an ordered field** with powers that obey four laws. Remainders and infinity may mean anything,
and so may powers otherwise. -/
class Scalar.OrderedField (K : Type) [Field K] [LinearOrder K] [Scalar K] : Prop extends Scalar.ExactField K where
  zero_eq : (Scalar.zero : K) = 0
  one_eq : (Scalar.one : K) = 1
  abs_eq (a : K) : Scalar.abs a = |a|
  eq_iff (a b : K) : Scalar.eq a b = true ↔ a = b
  lt_iff (a b : K) : Scalar.lt a b = true ↔ a < b
  isNaN_eq (a : K) : Scalar.isNaN a = false
  pow_one (a : K) : Scalar.pow a 1 = a
  pow_zero (a : K) : Scalar.pow a 0 = 1
  one_pow (a : K) : Scalar.pow 1 a = 1
  pow_neg (a c : K) : Scalar.pow a c ≠ 0 → Scalar.pow a (-c) = 1 / Scalar.pow a c

/-- **The rational numbers, with a power 1 where the exponent is not an integer.** -/
def Rational : Type := ℚ

namespace Rational

instance : Field Rational := inferInstanceAs (Field ℚ)

instance : LinearOrder Rational := inferInstanceAs (LinearOrder ℚ)

instance : IsStrictOrderedRing Rational := inferInstanceAs (IsStrictOrderedRing ℚ)

instance : Scalar Rational :=
  { (inferInstanceAs (Scalar ℚ) : Scalar Rational) with pow := fun a b => if b.den = 1 then a ^ b.num else (1 : ℚ) }

/-- The power of an opposite exponent is the reciprocal. -/
theorem pow_neg (a c : ℚ) :
    (if (-c).den = 1 then a ^ (-c).num else (1 : ℚ)) = 1 / if c.den = 1 then a ^ c.num else (1 : ℚ) := by
  rw [Rat.neg_den, Rat.neg_num]
  split
  · rw [zpow_neg, one_div]
  · rw [one_div_one]

instance : Scalar.OrderedField Rational where
  neg_eq _ := rfl
  add_eq _ _ := rfl
  sub_eq _ _ := rfl
  mul_eq _ _ := rfl
  div_eq _ _ _ := rfl
  zero_eq := rfl
  one_eq := rfl
  abs_eq a := by
    show (if a < 0 then -a else a) = |a|
    split
    · next h => rw [abs_of_neg h]
    · next h => rw [abs_of_nonneg (not_lt.mp h)]
  eq_iff a b := decide_eq_true_iff (p := (a : ℚ) = b)
  lt_iff a b := decide_eq_true_iff (p := (a : ℚ) < b)
  isNaN_eq _ := rfl
  pow_one a := zpow_one (a : ℚ)
  pow_zero a := zpow_zero (a : ℚ)
  one_pow a := by
    show (if Rat.den a = 1 then (1 : ℚ) ^ Rat.num a else 1) = 1
    split
    · exact one_zpow _
    · rfl
  pow_neg a c _ := pow_neg a c

end Rational

namespace Tree

variable {ι κ K : Type}

/-! ## Labels -/

mutual

/-- Labels on labels. -/
theorem relabel_relabel {μ : Type} (f : ι → κ) (h : κ → μ) (t : Tree ι K) :
    (t.relabel f).relabel h = t.relabel (h ∘ f) := by
  match t with
  | .literal _ _ | .var _ _ | .infinity _ => rfl
  | .negate _ t => simp only [relabel, relabel_relabel f h t, Function.comp]
  | .binary _ op a b => simp only [relabel, relabel_relabel f h a, relabel_relabel f h b, Function.comp]
  | .list _ items => simp only [relabel, relabelAll_relabelAll f h items, Function.comp]

theorem relabelAll_relabelAll {μ : Type} (f : ι → κ) (h : κ → μ) (ts : List (Tree ι K)) :
    relabelAll h (relabelAll f ts) = relabelAll (h ∘ f) ts := by
  match ts with
  | [] => rfl
  | t :: ts => simp only [relabelAll, relabel_relabel f h t, relabelAll_relabelAll f h ts]

end

@[simp] theorem term_term (t : Tree ι K) : t.term.term = t.term := relabel_relabel _ _ t

mutual

/-- **Placing a tree changes its labels only.** -/
theorem term_place (t : Tree ι K) (s : Slots) : (t.place s).1.term = t.term := by
  match t with
  | .literal _ _ | .var _ _ | .infinity _ => rfl
  | .negate _ t =>
    have ih : relabel (fun _ => ()) (t.place s).1 = relabel (fun _ => ()) t := term_place t s
    simp only [term, relabel, place, ih]
  | .binary _ op a b =>
    have iha : relabel (fun _ => ()) (a.place s).1 = relabel (fun _ => ()) a := term_place a s
    have ihb : ∀ s, relabel (fun _ => ()) (b.place s).1 = relabel (fun _ => ()) b := term_place b
    simp only [term, relabel, place, iha, ihb]
  | .list _ items => simp only [term, relabel, place, terms_placeAll items s]

theorem terms_placeAll (ts : List (Tree ι K)) (s : Slots) :
    relabelAll (fun _ => ()) (placeAll ts s).1 = relabelAll (fun _ => ()) ts := by
  match ts with
  | [] => rfl
  | t :: ts =>
    have ih : relabel (fun _ => ()) (t.place s).1 = relabel (fun _ => ()) t := term_place t s
    simp only [relabelAll, placeAll, ih, terms_placeAll ts]

end

mutual

/-- Values do not depend on labels. -/
theorem value_relabel [Scalar K] (load : String → Except ExprError K) (f : ι → κ) (t : Tree ι K) :
    (t.relabel f).value load = t.value load := by
  match t with
  | .literal _ _ | .var _ _ | .infinity _ => rfl
  | .negate _ t => simp only [relabel, value, value_relabel load f t]
  | .binary _ op a b => simp only [relabel, value, value_relabel load f a, value_relabel load f b]
  | .list _ items => simp only [relabel, value, valueAll_relabelAll load f items]

theorem valueAll_relabelAll [Scalar K] (load : String → Except ExprError K) (f : ι → κ) (ts : List (Tree ι K)) :
    valueAll load (relabelAll f ts) = valueAll load ts := by
  match ts with
  | [] => rfl
  | t :: ts => simp only [relabelAll, valueAll, value_relabel load f t, valueAll_relabelAll load f ts]

end

mutual

/-- Trees that differ in their labels only agree. -/
theorem same_of_term_eq [Scalar K] (hself : ∀ v : K, Scalar.same v v = true) (t : Tree ι K) (u : Tree κ K)
    (h : t.term = u.term) : t.same u = true := by
  cases t with
  | literal l v =>
    cases u <;> cases h
    exact hself v
  | var l x =>
    cases u <;> cases h
    exact beq_self_eq_true x
  | infinity l =>
    cases u <;> cases h
    rfl
  | negate l t =>
    cases u with
    | negate k u => exact same_of_term_eq hself t u (Tree.negate.inj h).2
    | _ => cases h
  | binary l op a b =>
    cases u with
    | binary k op' a' b' =>
      obtain ⟨-, rfl, ha, hb⟩ := Tree.binary.inj h
      rw [same, same_of_term_eq hself a a' ha, same_of_term_eq hself b b' hb]
      exact (Bool.and_true _).trans (beq_self_eq_true op)
    | _ => cases h
  | list l items =>
    cases u with
    | list k items' => exact sameAll_of_terms_eq hself items items' (Tree.list.inj h).2
    | _ => cases h

theorem sameAll_of_terms_eq [Scalar K] (hself : ∀ v : K, Scalar.same v v = true) (ts : List (Tree ι K))
    (us : List (Tree κ K)) (h : relabelAll (fun _ => ()) ts = relabelAll (fun _ => ()) us) : sameAll ts us = true := by
  match ts, us with
  | [], [] => rfl
  | t :: ts, u :: us =>
    injection h with ht hts
    rw [sameAll, same_of_term_eq hself t u ht, sameAll_of_terms_eq hself ts us hts]
    rfl
  | [], _ :: _ | _ :: _, [] => cases h

end

end Tree

/-! ## Regular trees -/

variable {ι κ K : Type} [Field K] [Scalar K]

/-- Whether exact arithmetic has a value for an operator on two numbers: only a quotient by zero has none. -/
def BinaryOp.Admits : BinaryOp → K → K → Prop
  | .div, _, w => w ≠ 0
  | _, _, _ => True

namespace Tree

mutual

/-- **A tree is regular** if its evaluation meets neither infinity nor a quotient by zero. -/
def Regular (load : String → Except ExprError K) : Tree ι K → Prop
  | .literal _ _ | .var _ _ => True
  | .infinity _ => False
  | .negate _ t => t.Regular load
  | .binary _ op a b =>
    a.Regular load ∧ b.Regular load ∧ ∀ v w, a.value load = .ok v → b.value load = .ok w → op.Admits v w
  | .list _ items => RegularAll load items

/-- Several trees are regular. -/
def RegularAll (load : String → Except ExprError K) : List (Tree ι K) → Prop
  | [] => True
  | t :: ts => t.Regular load ∧ RegularAll load ts

end

mutual

theorem regular_relabel (load : String → Except ExprError K) (f : ι → κ) (t : Tree ι K) :
    (t.relabel f).Regular load ↔ t.Regular load := by
  match t with
  | .literal _ _ | .var _ _ | .infinity _ => exact Iff.rfl
  | .negate _ t => simp only [relabel, Regular, regular_relabel load f t]
  | .binary _ op a b =>
    simp only [relabel, Regular, regular_relabel load f a, regular_relabel load f b, value_relabel]
  | .list _ items => simp only [relabel, Regular, regularAll_relabelAll load f items]

theorem regularAll_relabelAll (load : String → Except ExprError K) (f : ι → κ) (ts : List (Tree ι K)) :
    RegularAll load (relabelAll f ts) ↔ RegularAll load ts := by
  match ts with
  | [] => exact Iff.rfl
  | t :: ts => simp only [relabelAll, RegularAll, regular_relabel load f t, regularAll_relabelAll load f ts]

end

/-- **A tree yields a value** if it is regular and evaluates to it. -/
def Yields (load : String → Except ExprError K) (t : Tree ι K) (v : K) : Prop := t.Regular load ∧ t.value load = .ok v

variable {load : String → Except ExprError K}

/-- A tree yields one value only. -/
theorem Yields.unique {t : Tree ι K} {v w : K} (hv : t.Yields load v) (hw : t.Yields load w) : v = w :=
  Except.ok.inj (hv.2.symm.trans hw.2)

@[simp] theorem yields_literal {l : ι} {a v : K} : (literal l a : Tree ι K).Yields load v ↔ a = v := by
  simp [Yields, Regular, value]

@[simp] theorem yields_var {l : ι} {name : String} {v : K} :
    (var l name : Tree ι K).Yields load v ↔ load name = .ok v := by
  simp [Yields, Regular, value]

@[simp] theorem yields_infinity {l : ι} {v : K} : ¬(infinity l : Tree ι K).Yields load v := by
  simp [Yields, Regular]

theorem yields_negate {l : ι} {t : Tree ι K} {v : K} :
    (negate l t).Yields load v ↔ ∃ x, t.Yields load x ∧ v = Scalar.neg x := by
  simp only [Yields, Regular, value]
  cases t.value load with
  | error e => simp [bind, Except.bind]
  | ok x => simp [bind, Except.bind, pure, Except.pure, eq_comm]

theorem yields_binary {l : ι} {op : BinaryOp} {a b : Tree ι K} {v : K} :
    (binary l op a b).Yields load v ↔
      ∃ x y, a.Yields load x ∧ b.Yields load y ∧ op.Admits x y ∧ v = op.apply x y := by
  simp only [Yields, Regular, value]
  cases ha : a.value load with
  | error e => simp [bind, Except.bind]
  | ok x =>
    cases hb : b.value load with
    | error e => simp [bind, Except.bind]
    | ok y =>
      simp only [bind, Except.bind, pure, Except.pure, Except.ok.injEq]
      constructor
      · rintro ⟨⟨hra, hrb, hadmits⟩, rfl⟩
        exact ⟨x, y, ⟨hra, rfl⟩, ⟨hrb, rfl⟩, hadmits x y rfl rfl, rfl⟩
      · rintro ⟨x', y', ⟨hra, rfl⟩, ⟨hrb, rfl⟩, hadmits, rfl⟩
        exact ⟨⟨hra, hrb, fun v w hv hw => hv ▸ hw ▸ hadmits⟩, rfl⟩

/-- A list yields something only if it has a single item. -/
theorem yields_list {l : ι} {items : List (Tree ι K)} {v : K} :
    (list l items).Yields load v ↔ ∃ t, items = [t] ∧ t.Yields load v := by
  constructor
  · rintro ⟨hregular, hvalue⟩
    rw [value] at hvalue
    cases hvs : valueAll load items with
    | error e => rw [hvs] at hvalue; cases hvalue
    | ok vs =>
      have hlength := length_valueAll hvs
      rw [hvs] at hvalue
      match vs, hlength, hvalue with
      | [w], hlength, hvalue =>
        obtain ⟨t, rfl⟩ := List.length_eq_one_iff.mp hlength.symm
        cases hvalue
        rw [valueAll] at hvs
        cases ht : t.value load with
        | error e => rw [ht] at hvs; cases hvs
        | ok x =>
          rw [ht] at hvs
          cases hvs
          exact ⟨t, rfl, hregular.1, ht⟩
      | [], _, hvalue => cases hvalue
      | _ :: _ :: _, _, hvalue => cases hvalue
  · rintro ⟨t, rfl, hregular, hvalue⟩
    refine ⟨⟨hregular, trivial⟩, ?_⟩
    simp [value, valueAll, hvalue, bind, Except.bind, pure, Except.pure]

theorem yields_relabel (f : ι → κ) {t : Tree ι K} {v : K} : (t.relabel f).Yields load v ↔ t.Yields load v := by
  rw [Yields, Yields, regular_relabel, value_relabel]

/-- What a tree yields does not depend on its labels. -/
theorem yields_term {t : Tree ι K} {v : K} : t.term.Yields load v ↔ t.Yields load v := yields_relabel _

theorem yields_place {t : Tree ι K} {s : Slots} {v : K} : (t.place s).1.Yields load v ↔ t.Yields load v := by
  rw [← yields_term, term_place, yields_term]

/-! ## Trees that keep what they yield -/

/-- **The second tree yields whatever the first one does.** -/
def Keeps (load : String → Except ExprError K) (t : Tree ι K) (u : Tree κ K) : Prop :=
  ∀ v, t.Yields load v → u.Yields load v

namespace Keeps

theorem refl (t : Tree ι K) : Keeps load t t := fun _ h => h

theorem trans {μ : Type} {t : Tree ι K} {u : Tree κ K} {w : Tree μ K} (h₁ : Keeps load t u) (h₂ : Keeps load u w) :
    Keeps load t w :=
  fun v h => h₂ v (h₁ v h)

/-- Trees that differ in their labels only keep what they yield. -/
theorem of_term_eq {t : Tree ι K} {u : Tree κ K} (h : t.term = u.term) : Keeps load t u :=
  fun _ hv => yields_term.mp (h ▸ yields_term.mpr hv)

theorem place (t : Tree ι K) (s : Slots) : Keeps load t (t.place s).1 := fun _ => yields_place.mpr

theorem negate {l : ι} {k : κ} {t : Tree ι K} {u : Tree κ K} (h : Keeps load t u) :
    Keeps load (.negate l t) (.negate k u) := by
  intro v hv
  obtain ⟨x, hx, rfl⟩ := yields_negate.mp hv
  exact yields_negate.mpr ⟨x, h x hx, rfl⟩

theorem binary {l : ι} {k : κ} {o : BinaryOp} {a b : Tree ι K} {a' b' : Tree κ K} (ha : Keeps load a a')
    (hb : Keeps load b b') : Keeps load (.binary l o a b) (.binary k o a' b') := by
  intro v hv
  obtain ⟨x, y, hx, hy, hadmits, rfl⟩ := yields_binary.mp hv
  exact yields_binary.mpr ⟨x, y, ha x hx, hb y hy, hadmits, rfl⟩

theorem list {l : ι} {k : κ} {items : List (Tree ι K)} {items' : List (Tree κ K)}
    (h : List.Forall₂ (Keeps load) items items') : Keeps load (.list l items) (.list k items') := by
  intro v hv
  obtain ⟨t, rfl, ht⟩ := yields_list.mp hv
  obtain ⟨u, us, hu, hnil, rfl⟩ := List.forall₂_cons_left_iff.mp h
  cases hnil
  exact yields_list.mpr ⟨u, rfl, hu v ht⟩

end Keeps

end Tree

namespace Expr

variable {load : String → Except ExprError K}

/-- **Two expressions joined by an operator** yield the operator on what they yield. -/
theorem yields_binary {op : BinaryOp} {e f : Expr K} {v : K} :
    (binary op e f).tree.Yields load v ↔
      ∃ x y, e.tree.Yields load x ∧ f.tree.Yields load y ∧ op.Admits x y ∧ v = op.apply x y := by
  show (Tree.binary _ op e.tree (f.tree.place e.slots).1).Yields load v ↔ _
  simp only [Tree.yields_binary, Tree.yields_place]

end Expr

end SignalFlow
