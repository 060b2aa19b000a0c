import Mathlib.Algebra.BigOperators.Group.List.Basic
import Mathlib.Algebra.Order.Group.Unbundled.Abs
import Mathlib.Tactic.LinearCombination
import SignalFlow.Proofs.Rewrite.Rules
import SignalFlow.Rewrite.LikeTerms

/-!
# Collecting like terms keeps values

A term of a sum yields its coefficient times what its factors yield (`Summand.Yields`), and a list of terms yields a sum
(`SumYields`). Reading a tree as a list of terms, merging like terms, dropping those with coefficient zero, moving the
constant to the front and writing the list as a tree each keep this number; so does the pass as a whole
(`keeps_collect`).
-/

namespace SignalFlow.Rewrite

open SignalFlow.Tree

/-! ## Order -/

/-- Sorting factors only changes their order. -/
theorem sortFactors_perm {α : Type} [Scalar α] (fs : List (Term α)) : (sortFactors fs).Perm fs := by
  have hperm := ((List.mergeSort_perm (fs.map fun f => (f.text, f)) fun x y => decide (x.1 ≤ y.1)).map (·.2))
  rwa [List.map_map, List.map_id''] at hperm
  exact fun _ => rfl

/-- Moving the constant to the front only changes the order. -/
theorem constantFirst_perm {α : Type} (ts : List (Summand α)) : (constantFirst ts).Perm ts :=
  List.filter_append_perm _ ts

/-! ## Factors and divisors -/

variable {K : Type} [Field K]

/-- A number as a factor: its reciprocal if it divides. -/
def asFactor (inverted : Bool) (x : K) : K := if inverted then x⁻¹ else x

theorem asFactor_mul (inverted : Bool) (x y : K) :
    asFactor inverted (x * y) = asFactor inverted x * asFactor inverted y := by
  cases inverted with
  | false => rfl
  | true => exact mul_inv x y

theorem asFactor_div (inverted : Bool) (x y : K) :
    asFactor inverted (x / y) = asFactor inverted x * asFactor (!inverted) y := by
  cases inverted with
  | false => exact div_eq_mul_inv x y
  | true => show (x / y)⁻¹ = x⁻¹ * y; rw [inv_div, div_eq_mul_inv, mul_comm]

theorem asFactor_neg (inverted : Bool) (x : K) : asFactor inverted (-x) = -asFactor inverted x := by
  cases inverted with
  | false => rfl
  | true => exact inv_neg

variable [Scalar K] {load : String → Except ExprError K}

/-! ## What terms and sums yield -/

/-- **A term yields its coefficient times what its factors yield.** -/
def Summand.Yields (load : String → Except ExprError K) (t : Summand K) (v : K) : Prop :=
  ∃ xs, List.Forall₂ (Tree.Yields load) t.factors xs ∧ v = t.coeff * xs.prod

/-- **A list of terms yields the sum of what they yield.** -/
def SumYields (load : String → Except ExprError K) (ts : List (Summand K)) (v : K) : Prop :=
  ∃ vs, List.Forall₂ (Summand.Yields load) ts vs ∧ v = vs.sum

section Sums

variable {t : Summand K} {ts us : List (Summand K)} {v w : K}

theorem sumYields_nil : SumYields load [] v ↔ v = 0 := by
  constructor
  · rintro ⟨vs, hvs, rfl⟩
    cases hvs
    rfl
  · rintro rfl
    exact ⟨[], .nil, rfl⟩

theorem sumYields_cons : SumYields load (t :: ts) v ↔ ∃ x y, t.Yields load x ∧ SumYields load ts y ∧ v = x + y := by
  constructor
  · rintro ⟨vs, hvs, rfl⟩
    obtain ⟨x, ys, hx, hys, rfl⟩ := List.forall₂_cons_left_iff.mp hvs
    exact ⟨x, ys.sum, hx, ⟨ys, hys, rfl⟩, List.sum_cons⟩
  · rintro ⟨x, y, hx, ⟨ys, hys, rfl⟩, rfl⟩
    exact ⟨x :: ys, .cons hx hys, List.sum_cons.symm⟩

theorem SumYields.append (ht : SumYields load ts v) (hu : SumYields load us w) :
    SumYields load (ts ++ us) (v + w) := by
  obtain ⟨xs, hxs, rfl⟩ := ht
  obtain ⟨ys, hys, rfl⟩ := hu
  exact ⟨xs ++ ys, List.rel_append hxs hys, List.sum_append.symm⟩

/-- The order of the terms does not matter. -/
theorem SumYields.perm (h : ts.Perm us) (ht : SumYields load ts v) : SumYields load us v := by
  obtain ⟨xs, hxs, rfl⟩ := ht
  obtain ⟨ys, hys, hperm⟩ := List.perm_comp_forall₂ h.symm hxs
  exact ⟨ys, hys, hperm.sum_eq.symm⟩

/-- The order of the factors does not matter. -/
theorem Summand.Yields.perm {c : K} {fs gs : List (Term K)} (h : fs.Perm gs)
    (ht : Summand.Yields load ⟨c, fs⟩ v) : Summand.Yields load ⟨c, gs⟩ v := by
  obtain ⟨xs, hxs, rfl⟩ := ht
  obtain ⟨ys, hys, hperm⟩ := List.perm_comp_forall₂ h.symm hxs
  exact ⟨ys, hys, by rw [hperm.prod_eq]⟩

/-- The factors of one term go on with those of another, which starts from the coefficient of the first. -/
theorem Summand.Yields.mul {c d e : K} {fs gs : List (Term K)} {x y : K} (hf : Summand.Yields load ⟨d, fs⟩ (c * x))
    (hg : Summand.Yields load ⟨e, gs⟩ (d * y)) : Summand.Yields load ⟨e, fs ++ gs⟩ (c * (x * y)) := by
  obtain ⟨xs, hxs, hx⟩ := hf
  obtain ⟨ys, hys, hy⟩ := hg
  refine ⟨xs ++ ys, List.rel_append hxs hys, ?_⟩
  simp only [List.prod_append] at hx hy ⊢
  linear_combination y * hx + xs.prod * hy

/-- Factors yield one list of numbers only. -/
theorem yields_factors_unique {fs : List (Term K)} {xs ys : List K} (hx : List.Forall₂ (Tree.Yields load) fs xs)
    (hy : List.Forall₂ (Tree.Yields load) fs ys) : xs = ys := by
  have hunique : Relator.RightUnique (Tree.Yields (ι := Unit) load) := fun _ _ _ => Yields.unique
  exact hunique.forall₂ hx hy

end Sums

/-! ## Trees that agree are equal -/

/-- Literals are the same only if they are equal. -/
theorem eq_of_same_literal [LinearOrder K] [Scalar.OrderedField K] {a b : K} (h : Scalar.same a b = true) :
    a = b := by
  rw [Scalar.same, Scalar.OrderedField.isNaN_eq, Bool.false_and, Bool.or_false] at h
  exact (Scalar.OrderedField.eq_iff a b).mp h

mutual

/-- **Bare trees agree only if they are equal.** -/
theorem eq_of_same [LinearOrder K] [Scalar.OrderedField K] {t u : Term K} (h : t.same u = true) : t = u := by
  match t, u with
  | .literal _ a, .literal _ b => rw [eq_of_same_literal h]
  | .var _ name, .var _ other => rw [of_decide_eq_true h]
  | .infinity _, .infinity _ => rfl
  | .negate _ t, .negate _ u => rw [eq_of_same (t := t) (u := u) h]
  | .binary _ op a b, .binary _ op' a' b' =>
    obtain ⟨hop, hab⟩ := (Bool.and_eq_true _ _).mp h
    obtain ⟨ha, hb⟩ := (Bool.and_eq_true _ _).mp hab
    rw [eq_of_beq hop, eq_of_same ha, eq_of_same hb]
  | .list _ items, .list _ others =>
    have hitems : sameAll items others = true := h
    rw [eq_of_sameAll hitems]

theorem eq_of_sameAll [LinearOrder K] [Scalar.OrderedField K] {ts us : List (Term K)}
    (h : sameAll ts us = true) : ts = us := by
  match ts, us with
  | [], [] => rfl
  | t :: ts, u :: us =>
    obtain ⟨ht, hts⟩ := (Bool.and_eq_true _ _).mp h
    rw [eq_of_same ht, eq_of_sameAll hts]

end

/-! ## Reading -/

section Ordered

variable [LinearOrder K] [Scalar.OrderedField K]

/-- The reciprocal of a factor other than zero yields the reciprocal of the number. -/
theorem yields_reciprocal {t : Term K} {x : K} (ht : t.Yields load x) (hx : x ≠ 0) :
    (reciprocal t).Yields load x⁻¹ := by
  unfold reciprocal
  split
  · obtain ⟨y, c, hy, hc, rfl⟩ := yields_pow.mp ht
    rw [yields_literal] at hc
    refine yields_pow.mpr ⟨y, -c, hy, ?_, ?_⟩
    · rw [yields_literal, hc, Scalar.Exact.neg_eq]
    · rw [Scalar.OrderedField.pow_neg y c hx, one_div]
  · have hpow : Scalar.pow x (1 : K) = x := Scalar.OrderedField.pow_one x
    refine yields_pow.mpr ⟨x, -1, ht, ?_, ?_⟩
    · rw [yields_literal, Scalar.minusOne, Scalar.OrderedField.one_eq, Scalar.Exact.neg_eq]
    · rw [Scalar.OrderedField.pow_neg x 1 (by rw [hpow]; exact hx), hpow, one_div]

/-- A factor as it stands in a term of a sum. -/
def factor (f : Term K × Bool) : Term K := if f.2 then reciprocal f.1 else f.1

/-- A factor yields what its tree does, or the reciprocal. -/
theorem yields_factor {t : Term K} {x : K} (ht : t.Yields load x) {inverted : Bool} (hx : inverted = true → x ≠ 0) :
    (factor (t, inverted)).Yields load (asFactor inverted x) := by
  cases inverted with
  | false => exact ht
  | true => exact yields_reciprocal ht (hx rfl)

/-- **The coefficient and the factors of a product** multiply to what it yields, or to its reciprocal. -/
theorem yields_readFactors {t : Term K} {x : K} (ht : t.Yields load x) (inverted : Bool)
    (hx : inverted = true → x ≠ 0) (c : K) :
    Summand.Yields load ⟨(readFactors t inverted c).1, (readFactors t inverted c).2.map factor⟩
      (c * asFactor inverted x) := by
  fun_induction readFactors t inverted c generalizing x
  case case1 l v inverted c hinverted =>
    rw [yields_literal] at ht
    have hfalse : inverted = false := by simpa using hinverted
    exact ⟨[], .nil, by simp [hfalse, ht, asFactor, Scalar.Exact.mul_eq]⟩
  case case2 l v inverted c hinverted hzero =>
    rw [yields_literal] at ht
    have htrue : inverted = true := by simpa using hinverted
    refine ⟨[], .nil, ?_⟩
    simp [htrue, ht, asFactor, Scalar.ExactField.div_eq c x (hx htrue), div_eq_mul_inv]
  case case3 l v inverted c hinverted hzero =>
    -- A divisor that is the literal zero is not regular.
    rw [yields_literal] at ht
    have htrue : inverted = true := by simpa using hinverted
    have hv : v = Scalar.zero := (Scalar.OrderedField.eq_iff v _).mp (by simpa [Scalar.isZero] using hzero)
    exact absurd (ht ▸ hv.trans Scalar.OrderedField.zero_eq) (hx htrue)
  case case4 _ a b inverted c left right iha ihb =>
    obtain ⟨y, z, hy, hz, rfl⟩ := yields_mul.mp ht
    rw [asFactor_mul, List.map_append]
    exact (iha hy fun h => left_ne_zero_of_mul (hx h)).mul (ihb hz fun h => right_ne_zero_of_mul (hx h))
  case case5 _ a b inverted c left right iha ihb =>
    obtain ⟨y, z, hy, hz, hz0, rfl⟩ := yields_div.mp ht
    rw [asFactor_div, List.map_append]
    exact (iha hy fun h => left_ne_zero_of_mul (div_eq_mul_inv y z ▸ hx h)).mul (ihb hz fun _ => hz0)
  case case6 _ t inverted c ih =>
    obtain ⟨y, hy, rfl⟩ := yields_neg.mp ht
    rw [asFactor_neg, mul_neg, ← neg_mul, ← Scalar.Exact.neg_eq]
    exact ih hy fun h => neg_ne_zero.mp (hx h)
  case case7 t inverted c _ _ _ _ =>
    exact ⟨[asFactor inverted x], .cons (yields_factor ht hx) .nil, by rw [List.prod_singleton]⟩

/-- A product reads as a term that yields a multiple of what it does. -/
theorem yields_readProduct {t : Term K} {x : K} (ht : t.Yields load x) (sign : K) :
    (readProduct t sign).Yields load (sign * x) :=
  yields_readFactors ht false (fun h => Bool.noConfusion h) sign

/-- A sum under a coefficient, and the coefficient, multiply to the same. -/
theorem yields_scaledSum {t : Term K} {sign c : K} {s : Term K} {hs : s.size < t.size}
    (h : scaledSum? t sign = some (c, ⟨s, hs⟩)) {x : K} (ht : t.Yields load x) :
    ∃ y, s.Yields load y ∧ c * y = sign * x := by
  have hproduct := yields_readFactors ht false (fun h => Bool.noConfusion h) sign
  unfold scaledSum? at h
  split at h
  · cases h
  · split at h
    · next c' s' hfactors =>
      split at h
      · cases h
        rw [hfactors] at hproduct
        obtain ⟨xs, hxs, hx⟩ := hproduct
        obtain ⟨y, ys, hy, hys, rfl⟩ := List.forall₂_cons_left_iff.mp hxs
        cases hys
        exact ⟨y, hy, by rw [List.prod_singleton] at hx; exact hx.symm⟩
      · cases h
    · cases h

/-- **The terms of a sum** yield its multiple by the sign. -/
theorem yields_readTerms {t : Term K} {x : K} (ht : t.Yields load x) (sign : K) :
    SumYields load (readTerms t sign) (sign * x) := by
  fun_induction readTerms t sign generalizing x with
  | case1 sign _ a b iha ihb =>
    obtain ⟨y, z, hy, hz, rfl⟩ := yields_add.mp ht
    rw [mul_add]
    exact (iha hy).append (ihb hz)
  | case2 sign _ a b iha ihb =>
    obtain ⟨y, z, hy, hz, rfl⟩ := yields_sub.mp ht
    have hneg : sign * (y - z) = sign * y + Scalar.neg sign * z := by rw [Scalar.Exact.neg_eq]; ring
    rw [hneg]
    exact (iha hy).append (ihb hz)
  | case3 sign t hadd hsub c s hs h ih =>
    obtain ⟨y, hy, hcy⟩ := yields_scaledSum h ht
    rw [← hcy]
    exact ih hy
  | case4 sign t hadd hsub h => exact ⟨[sign * x], .cons (yields_readProduct ht sign) .nil, List.sum_singleton.symm⟩

/-! ## Merging -/

/-- **Merging a term adds what it yields.** -/
theorem yields_mergeTerm {t : Summand K} {v : K} (ht : t.Yields load v) {ms : List (Summand K)} {w : K}
    (hms : SumYields load ms w) : SumYields load (mergeTerm t ms) (v + w) := by
  induction ms generalizing w with
  | nil => exact sumYields_cons.mpr ⟨v, w, ht, hms, rfl⟩
  | cons m rest ih =>
    obtain ⟨y, z, hy, hz, rfl⟩ := sumYields_cons.mp hms
    rw [mergeTerm]
    split
    · next hsame =>
      obtain ⟨xs, hxs, rfl⟩ := ht
      obtain ⟨ys, hys, rfl⟩ := hy
      have hxy : xs = ys := yields_factors_unique hxs (eq_of_sameAll hsame ▸ hys)
      refine sumYields_cons.mpr ⟨(m.coeff + t.coeff) * ys.prod, z, ⟨ys, hys, ?_⟩, hz, ?_⟩
      · rw [Scalar.Exact.add_eq]
      · rw [hxy]
        ring
    · exact sumYields_cons.mpr ⟨y, v + z, hy, ih hz, by ring⟩

/-- **Merging like terms keeps the sum.** -/
theorem yields_mergeTerms {ts : List (Summand K)} {v : K} (h : SumYields load ts v) :
    SumYields load (mergeTerms ts) v := by
  -- The terms merged so far and those still to come make the sum.
  suffices hfold : ∀ ms w, SumYields load ms w → SumYields load
      (ts.foldl (fun merged t => mergeTerm ⟨t.coeff, sortFactors t.factors⟩ merged) ms) (w + v) by
    have hall := hfold [] 0 (sumYields_nil.mpr rfl)
    rwa [zero_add] at hall
  induction ts generalizing v with
  | nil =>
    intro ms w hms
    rw [sumYields_nil.mp h, add_zero]
    exact hms
  | cons t ts ih =>
    intro ms w hms
    obtain ⟨x, y, hx, hy, rfl⟩ := sumYields_cons.mp h
    have hstep := yields_mergeTerm (hx.perm (sortFactors_perm t.factors).symm) hms
    have hall := ih hy _ _ hstep
    rw [List.foldl_cons, show w + (x + y) = x + w + y by ring]
    exact hall

/-- Terms that do not stay yield zero, so the others yield the sum. -/
theorem yields_filter_stays {ts : List (Summand K)} {v : K} (h : SumYields load ts v) :
    SumYields load (ts.filter Summand.stays) v := by
  induction ts generalizing v with
  | nil => exact h
  | cons t ts ih =>
    obtain ⟨x, y, hx, hy, rfl⟩ := sumYields_cons.mp h
    rw [List.filter_cons]
    split
    · exact sumYields_cons.mpr ⟨x, y, hx, ih hy, rfl⟩
    · next hstays =>
      have hzero : Scalar.isZero t.coeff = true := by
        by_contra hzero
        exact hstays (by simp [Summand.stays, hzero])
      have hcoeff : t.coeff = 0 := ((Scalar.OrderedField.eq_iff _ _).mp hzero).trans Scalar.OrderedField.zero_eq
      obtain ⟨xs, -, rfl⟩ := hx
      rw [hcoeff, zero_mul, zero_add]
      exact ih hy

/-! ## Writing -/

theorem yields_times {first : Term K} {x : K} (hx : first.Yields load x) {rest : List (Term K)} {xs : List K}
    (hxs : List.Forall₂ (Tree.Yields load) rest xs) : (times first rest).Yields load (x * xs.prod) := by
  induction hxs generalizing first x with
  | nil => rw [List.prod_nil, mul_one]; exact hx
  | cons hy _ ih =>
    rw [List.prod_cons, ← mul_assoc]
    exact ih (yields_mul.mpr ⟨_, _, hx, hy, rfl⟩)

/-- **A written term yields what the term does**, with or without its coefficient in front. -/
theorem yields_writeTerm {c : K} {fs : List (Term K)} {v : K} (h : Summand.Yields load ⟨c, fs⟩ v) :
    (writeTerm c fs).Yields load v := by
  obtain ⟨xs, hxs, rfl⟩ := h
  unfold writeTerm
  split
  · next hone =>
    have hc : c = 1 := ((Scalar.OrderedField.eq_iff _ _).mp hone).trans Scalar.OrderedField.one_eq
    cases hxs with
    | nil =>
      rw [yields_literal, List.prod_nil, mul_one, hc]
      exact Scalar.OrderedField.one_eq
    | cons hy hys =>
      rw [hc, one_mul, List.prod_cons]
      exact yields_times hy hys
  · exact yields_times (yields_literal.mpr rfl) hxs

variable [IsStrictOrderedRing K]

/-- Adding a term, or subtracting its opposite, adds what it yields. -/
theorem yields_addTerm {sum : Term K} {s : K} (hs : sum.Yields load s) {t : Summand K} {v : K}
    (ht : t.Yields load v) : (addTerm sum t).Yields load (s + v) := by
  obtain ⟨xs, hxs, rfl⟩ := ht
  have hterm : (writeTerm (Scalar.abs t.coeff) t.factors).Yields load (|t.coeff| * xs.prod) :=
    yields_writeTerm ⟨xs, hxs, by rw [Scalar.OrderedField.abs_eq]⟩
  unfold addTerm
  split
  · next hlt =>
    have hneg : t.coeff < 0 := Scalar.OrderedField.zero_eq (K := K) ▸ (Scalar.OrderedField.lt_iff _ _).mp hlt
    refine yields_sub.mpr ⟨s, _, hs, hterm, ?_⟩
    rw [abs_of_neg hneg]
    ring
  · next hlt =>
    have hnonneg : 0 ≤ t.coeff := by
      by_contra hneg
      exact hlt ((Scalar.OrderedField.lt_iff _ _).mpr (Scalar.OrderedField.zero_eq (K := K) ▸ not_le.mp hneg))
    refine yields_add.mpr ⟨s, _, hs, hterm, ?_⟩
    rw [abs_of_nonneg hnonneg]

/-- Adding terms one after the other adds their sum. -/
theorem yields_addTerms {ts : List (Summand K)} {v : K} (h : SumYields load ts v) {sum : Term K} {s : K}
    (hs : sum.Yields load s) : (ts.foldl addTerm sum).Yields load (s + v) := by
  induction ts generalizing v sum s with
  | nil =>
    rw [sumYields_nil.mp h, add_zero]
    exact hs
  | cons t ts ih =>
    obtain ⟨x, y, hx, hy, rfl⟩ := sumYields_cons.mp h
    rw [← add_assoc]
    exact ih hy (yields_addTerm hs hx)

/-- **The written sum yields the sum of the terms.** -/
theorem yields_writeTerms {ts : List (Summand K)} {v : K} (h : SumYields load ts v) :
    (writeTerms ts).Yields load v := by
  cases ts with
  | nil =>
    rw [sumYields_nil.mp h]
    exact yields_literal.mpr Scalar.OrderedField.zero_eq
  | cons t rest =>
    obtain ⟨x, y, hx, hy, rfl⟩ := sumYields_cons.mp h
    exact yields_addTerms hy (yields_writeTerm hx)

/-! ## The pass -/

/-- **A sum with its like terms collected yields what the sum does.** -/
theorem keeps_collectSum (t : Term K) : Keeps load t (collectSum t) := by
  intro v hv
  have hread := yields_readTerms hv (Scalar.one : K)
  rw [Scalar.OrderedField.one_eq, one_mul] at hread
  have hmerged := yields_filter_stays (yields_mergeTerms hread)
  unfold collectSum
  rw [Scalar.OrderedField.one_eq]
  exact yields_writeTerms (hmerged.perm (constantFirst_perm _).symm)

theorem keeps_collectRoot (t : Tree Id K) (s : Slots) (n : Nat) : Keeps load t (collectRoot t s n).1 := by
  simp only [collectRoot]
  split
  · exact Keeps.refl t
  · have hterm : Keeps load t t.term := Keeps.of_term_eq (term_term t).symm
    exact hterm.trans ((keeps_collectSum t.term).trans (Keeps.place _ s))

end Ordered

mutual

/-- **Collecting like terms keeps values.** -/
theorem keeps_collect [LinearOrder K] [Scalar.OrderedField K] [IsStrictOrderedRing K] (inSum : Bool)
    (t : Tree Id K) (s : Slots) (n : Nat) : Keeps load t (collect inSum t s n).1 := by
  match t with
  | .literal _ _ | .var _ _ | .infinity _ => exact Keeps.refl _
  | .negate _ t => exact Keeps.negate (keeps_collect false t s n)
  | .binary l op a b =>
    have hoperands := Keeps.binary (l := l) (k := l) (o := op) (keeps_collect op.isAdditive a s n)
      (keeps_collect op.isAdditive b (collect op.isAdditive a s n).2.1 (collect op.isAdditive a s n).2.2)
    simp only [collect]
    split
    · exact hoperands.trans (keeps_collectRoot _ _ _)
    · exact hoperands
  | .list _ items => exact Keeps.list (keeps_collectAll items s n)

theorem keeps_collectAll [LinearOrder K] [Scalar.OrderedField K] [IsStrictOrderedRing K] (ts : List (Tree Id K))
    (s : Slots) (n : Nat) :
    List.Forall₂ (Keeps load) ts (collectAll ts s n).1 := by
  match ts with
  | [] => exact .nil
  | t :: ts => exact .cons (keeps_collect false t s n) (keeps_collectAll ts _ _)

end

end SignalFlow.Rewrite
