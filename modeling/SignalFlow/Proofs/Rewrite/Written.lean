import SignalFlow.Proofs.Rewrite.Cost
import SignalFlow.Proofs.Rewrite.LikeTerms

/-!
# Collected sums are read as they were written

Collecting leaves terms that are `Written`: their factors are sorted and none of them is a product, a sign or a number,
a sum is not the only factor of a term, no two terms have the same factors, and the constant comes first (`Ready`). From
the sum that is written of such terms the same terms are read again, with coefficients that are the same literals
(`alike_readTerms_writeTerms`), merging, dropping and ordering leave them alone (`collect_ready`), and so collecting a
second time changes nothing (`same_collectSum_writeTerms`). Of the arithmetic this takes a few laws about signs and the
number one (`Scalar.Coefficients`), which rounding does not break.
-/

namespace SignalFlow

/-- **Coefficients can be read as they were written.** -/
class Scalar.Coefficients (α : Type) [Scalar α] : Prop where
  same_refl (a : α) : Scalar.same a a = true
  same_symm {a b : α} : Scalar.same a b = true → Scalar.same b a = true
  same_trans {a b c : α} : Scalar.same a b = true → Scalar.same b c = true → Scalar.same a c = true
  eq_one {a b : α} : Scalar.same a b = true → Scalar.eq a one = Scalar.eq b one
  isZero_eq {a b : α} : Scalar.same a b = true → Scalar.isZero a = Scalar.isZero b
  lt_zero {a b : α} : Scalar.same a b = true → Scalar.lt a zero = Scalar.lt b zero
  neg_same {a b : α} : Scalar.same a b = true → Scalar.same (Scalar.neg a) (Scalar.neg b) = true
  abs_same {a b : α} : Scalar.same a b = true → Scalar.same (Scalar.abs a) (Scalar.abs b) = true
  one_mul (a : α) : Scalar.same (Scalar.mul one a) a = true
  neg_one_mul (a : α) : Scalar.same (Scalar.mul (Scalar.neg one) a) (Scalar.neg a) = true
  neg_abs {a : α} : Scalar.lt a zero = true → Scalar.same (Scalar.neg (Scalar.abs a)) a = true
  abs_self {a : α} : Scalar.lt a zero = false → Scalar.same (Scalar.abs a) a = true

section Exact

variable {K : Type} [Field K] [LinearOrder K] [Scalar K] [Scalar.OrderedField K]

theorem Rewrite.same_of_eq {a b : K} (h : a = b) : Scalar.same a b = true := by
  rw [Scalar.same, (Scalar.OrderedField.eq_iff a b).mpr h, Bool.true_or]

open Rewrite in
/-- **The numbers of an ordered field** can be read as they were written. -/
instance [IsStrictOrderedRing K] : Scalar.Coefficients K where
  same_refl _ := same_of_eq rfl
  same_symm h := same_of_eq (eq_of_same_literal h).symm
  same_trans hab hbc := same_of_eq ((eq_of_same_literal hab).trans (eq_of_same_literal hbc))
  eq_one h := by rw [eq_of_same_literal h]
  isZero_eq h := by rw [eq_of_same_literal h]
  lt_zero h := by rw [eq_of_same_literal h]
  neg_same h := by rw [eq_of_same_literal h, same_of_eq rfl]
  abs_same h := by rw [eq_of_same_literal h, same_of_eq rfl]
  one_mul a := same_of_eq (by rw [Scalar.Exact.mul_eq, Scalar.OrderedField.one_eq, one_mul])
  neg_one_mul a := same_of_eq (by
    rw [Scalar.Exact.mul_eq, Scalar.Exact.neg_eq, Scalar.Exact.neg_eq, Scalar.OrderedField.one_eq, neg_one_mul])
  neg_abs {a} h := same_of_eq (by
    rw [Scalar.OrderedField.lt_iff, Scalar.OrderedField.zero_eq] at h
    rw [Scalar.Exact.neg_eq, Scalar.OrderedField.abs_eq, abs_of_neg h, neg_neg])
  abs_self {a} h := same_of_eq (by
    have hle : 0 ≤ a := by
      rw [← not_lt, ← Scalar.OrderedField.zero_eq (K := K), ← Scalar.OrderedField.lt_iff, h]
      exact Bool.false_ne_true
    rw [Scalar.OrderedField.abs_eq, abs_of_nonneg hle])

end Exact

namespace Rewrite

open SignalFlow.Tree
open Scalar (one zero Coefficients)

variable {α : Type}

theorem isAdditive_eq_false {t : Term α} (hadd : ∀ l a b, t = .binary l .add a b → False)
    (hsub : ∀ l a b, t = .binary l .sub a b → False) : t.isAdditive = false := by
  cases t with
  | binary l op a b =>
    cases op with
    | add => exact (hadd l a b rfl).elim
    | sub => exact (hsub l a b rfl).elim
    | _ => rfl
  | _ => rfl

theorem isAtom_of_not {t : Term α} (hliteral : ∀ l v, t = .literal l v → False)
    (hmul : ∀ l a b, t = .binary l .mul a b → False) (hdiv : ∀ l a b, t = .binary l .div a b → False)
    (hnegate : ∀ l u, t = .negate l u → False) : t.isAtom = true := by
  cases t with
  | literal l v => exact (hliteral l v rfl).elim
  | negate l t => exact (hnegate l t rfl).elim
  | binary l op a b =>
    cases op with
    | mul => exact (hmul l a b rfl).elim
    | div => exact (hdiv l a b rfl).elim
    | _ => rfl
  | _ => rfl

variable [Scalar α]

/-! ## Terms that are read -/

/-- The factors of a product are atoms, apart from divisors that are literals. -/
theorem atom_of_mem_readFactors {t : Term α} {inverted : Bool} {c : α} {f : Term α × Bool}
    (h : f ∈ (readFactors t inverted c).2) : f.1.isAtom = true ∨ f.2 = true ∧ f.1.literal?.isSome := by
  fun_induction readFactors t inverted c with
  | case1 | case2 => cases h
  | case3 l v inverted c hinverted hzero =>
    obtain rfl := List.mem_singleton.mp h
    exact .inr ⟨by simpa using hinverted, rfl⟩
  | case4 _ a b inverted c left right iha ihb => exact (List.mem_append.mp h).elim iha ihb
  | case5 _ a b inverted c left right iha ihb => exact (List.mem_append.mp h).elim iha ihb
  | case6 _ t inverted c ih => exact ih h
  | case7 t inverted c hliteral hmul hdiv hnegate =>
    obtain rfl := List.mem_singleton.mp h
    exact .inl (isAtom_of_not hliteral hmul hdiv hnegate)

theorem isAtom_reciprocal (t : Term α) : (reciprocal t).isAtom = true ∧ (reciprocal t).isAdditive = false := by
  unfold reciprocal
  split <;> exact ⟨rfl, rfl⟩

theorem isAtom_factor {t : Term α} {inverted : Bool} {c : α} {f : Term α × Bool}
    (h : f ∈ (readFactors t inverted c).2) : (factor f).isAtom = true := by
  rw [factor]
  split
  · exact (isAtom_reciprocal f.1).1
  · next hf => exact (atom_of_mem_readFactors h).resolve_right fun hliteral => hf hliteral.1

theorem scaledSum?_eq_some {t : Term α} {sign c : α} {s : Term α} {hs : s.size < t.size}
    (h : scaledSum? t sign = some (c, ⟨s, hs⟩)) :
    readFactors t false sign = (c, [(s, false)]) ∧ s.isAdditive = true ∧ t.isAdditive = false := by
  unfold scaledSum? at h
  split at h
  · cases h
  · next ht =>
    split at h
    · next d u hfactors =>
      split at h
      · next hu =>
        cases h
        exact ⟨hfactors, hu, Bool.eq_false_iff.mpr ht⟩
      · cases h
    · cases h

/-- A product of which a sum is the only factor. -/
theorem isSome_scaledSum? {t : Term α} {sign : α} {s : Term α} (ht : t.isAdditive = false)
    (hread : (readFactors t false sign).2 = [(s, false)]) (hs : s.isAdditive = true) : (scaledSum? t sign).isSome := by
  unfold scaledSum?
  rw [dif_neg (by rw [ht]; exact Bool.false_ne_true)]
  split
  · next c u hu =>
    rw [hu] at hread
    obtain rfl : u = s := congrArg Prod.fst (List.singleton_inj.mp hread)
    rw [dif_pos hs]
    rfl
  · next hno =>
    have heq : readFactors t false sign = ((readFactors t false sign).1, [(s, false)]) := Prod.ext rfl hread
    exact absurd heq (hno _ s)

/-- A product of factors of which none is a sum alone. -/
theorem scaledSum?_eq_none {t : Term α} {sign c : α} {fs : List (Term α)}
    (h : readFactors t false sign = (c, fs.map (·, false))) (hfs : ∀ f, fs = [f] → f.isAdditive = false) :
    scaledSum? t sign = none := by
  refine Option.eq_none_iff_forall_ne_some.mpr fun ⟨d, s, hs⟩ hsome => ?_
  obtain ⟨hread, hadditive, -⟩ := scaledSum?_eq_some hsome
  rw [h, Prod.mk.injEq, List.map_eq_singleton_iff] at hread
  obtain ⟨-, f, rfl, hf⟩ := hread
  obtain rfl : f = s := congrArg Prod.fst hf
  rw [hfs f rfl] at hadditive
  cases hadditive

theorem readTerms_of_not_additive {t : Term α} {sign : α} (ht : t.isAdditive = false)
    (h : scaledSum? t sign = none) : readTerms t sign = [readProduct t sign] := by
  have hadd : ∀ l a b, t = .binary l .add a b → False := fun l a b heq => by rw [heq] at ht; cases ht
  have hsub : ∀ l a b, t = .binary l .sub a b → False := fun l a b heq => by rw [heq] at ht; cases ht
  rw [readTerms]
  · split
    · next heq =>
      rw [h] at heq
      cases heq
    · rfl
  · exact hadd
  · exact hsub

/-- **The factors are atoms**, and no sum stands alone. -/
structure Summand.Read (s : Summand α) : Prop where
  atoms : ∀ f ∈ s.factors, f.isAtom = true
  alone : ∀ f, s.factors = [f] → f.isAdditive = false

/-- A product that is read as one term. -/
theorem read_readProduct {t : Term α} {sign : α} (ht : t.isAdditive = false) (h : scaledSum? t sign = none) :
    (readProduct t sign).Read where
  atoms := by
    rw [readProduct, List.forall_mem_map]
    exact fun f hf => isAtom_factor hf
  alone f hf := by
    rw [readProduct] at hf
    obtain ⟨⟨g, inverted⟩, hfactors, rfl⟩ := List.map_eq_singleton_iff.mp hf
    cases inverted with
    | true => exact (isAtom_reciprocal g).2
    | false =>
      by_contra hg
      have hsome := isSome_scaledSum? ht hfactors (Bool.eq_true_of_not_eq_false hg)
      rw [h] at hsome
      cases hsome

/-- **What is read of a sum.** -/
theorem read_of_mem_readTerms {t : Term α} {sign : α} {s : Summand α} (hs : s ∈ readTerms t sign) : s.Read := by
  fun_induction readTerms t sign with
  | case1 sign _ a b iha ihb => exact (List.mem_append.mp hs).elim iha ihb
  | case2 sign _ a b iha ihb => exact (List.mem_append.mp hs).elim iha ihb
  | case3 sign t hadd hsub c s' hs' h ih => exact ih hs
  | case4 sign t hadd hsub h =>
    obtain rfl := List.mem_singleton.mp hs
    exact read_readProduct (isAdditive_eq_false hadd hsub) h

/-! ## Terms that are written -/

/-- **A term as collecting leaves it.** -/
structure Summand.Written (s : Summand α) : Prop extends s.Read where
  sorted : sortFactors s.factors = s.factors
  stays : s.stays = true

/-- The terms have different factors. -/
def Distinct (ts : List (Summand α)) : Prop :=
  (ts.map Summand.factors).Pairwise fun fs gs => sameAll fs gs = false

/-- Constants come before other terms. -/
def Ordered (ts : List (Summand α)) : Prop :=
  (ts.map Summand.factors).Pairwise fun fs gs => gs = [] → fs = []

/-- **Terms as collecting leaves them.** -/
structure Ready (ts : List (Summand α)) : Prop where
  written : ∀ s ∈ ts, s.Written
  distinct : Distinct ts
  ordered : Ordered ts

/-- The order in which factors are sorted. -/
def textLe (x y : String × Term α) : Bool := decide (x.1 ≤ y.1)

omit [Scalar α] in
theorem textLe_iff {x y : String × Term α} : textLe x y = true ↔ x.1 ≤ y.1 := decide_eq_true_iff

/-- **Sorted factors have sorted texts.** -/
theorem sorted_sortFactors (fs : List (Term α)) : ((sortFactors fs).map text).Pairwise (· ≤ ·) := by
  have htexts : (sortFactors fs).map text = ((fs.map fun f => (f.text, f)).mergeSort textLe).map (·.1) := by
    change ((List.mergeSort _ textLe).map (·.2)).map text = _
    rw [List.map_map]
    refine List.map_congr_left fun x hx => ?_
    obtain ⟨f, -, rfl⟩ := List.mem_map.mp ((List.mergeSort_perm _ textLe).mem_iff.mp hx)
    rfl
  have htrans : ∀ x y z : String × Term α, textLe x y = true → textLe y z = true → textLe x z = true :=
    fun x y z hxy hyz => textLe_iff.mpr (String.le_trans (textLe_iff.mp hxy) (textLe_iff.mp hyz))
  have htotal : ∀ x y : String × Term α, (textLe x y || textLe y x) = true := fun x y => by
    rw [Bool.or_eq_true, textLe_iff, textLe_iff]
    exact String.le_total x.1 y.1
  rw [htexts]
  exact List.pairwise_map.mpr ((List.pairwise_mergeSort htrans htotal _).imp textLe_iff.mp)

/-- Factors with sorted texts are sorted. -/
theorem sortFactors_of_sorted {fs : List (Term α)} (h : (fs.map text).Pairwise (· ≤ ·)) : sortFactors fs = fs := by
  have hsorted : (fs.map fun f => (f.text, f)).Pairwise fun x y => textLe x y = true :=
    List.pairwise_map.mpr ((List.pairwise_map.mp h).imp textLe_iff.mpr)
  change ((fs.map fun f => (f.text, f)).mergeSort textLe).map (·.2) = fs
  rw [List.mergeSort_of_pairwise hsorted, List.map_map]
  exact List.map_id fs

theorem sortFactors_idem (fs : List (Term α)) : sortFactors (sortFactors fs) = sortFactors fs :=
  sortFactors_of_sorted (sorted_sortFactors fs)

omit [Scalar α] in
theorem Summand.Read.perm {c d : α} {fs gs : List (Term α)} (h : fs.Perm gs) (hs : Summand.Read ⟨c, gs⟩) :
    Summand.Read ⟨d, fs⟩ where
  atoms f hf := hs.atoms f (h.mem_iff.mp hf)
  alone f hf := hs.alone f (List.perm_singleton.mp (hf ▸ h.symm))

/-- A term with other factors than all of them comes last. -/
theorem mergeTerm_new {t : Summand α} {ms : List (Summand α)} (h : ∀ m ∈ ms, sameAll m.factors t.factors = false) :
    mergeTerm t ms = ms ++ [t] := by
  induction ms with
  | nil => rfl
  | cons m rest ih =>
    have hrest := List.forall_mem_cons.mp h
    rw [mergeTerm, hrest.1, ih hrest.2]
    rfl

/-- **A term is merged into one with the same factors**, or it is a new one. -/
theorem factors_mergeTerm (t : Summand α) (ms : List (Summand α)) :
    (mergeTerm t ms).map Summand.factors = ms.map Summand.factors ∨
      ∀ m ∈ ms, sameAll m.factors t.factors = false := by
  induction ms with
  | nil => exact .inr nofun
  | cons m rest ih =>
    rw [mergeTerm]
    split
    · exact .inl rfl
    · next hm =>
      rcases ih with ih | hrest
      · exact .inl (congrArg (m.factors :: ·) ih)
      · exact .inr (List.forall_mem_cons.mpr ⟨Bool.eq_false_iff.mpr hm, hrest⟩)

theorem distinct_append_singleton {ms : List (Summand α)} {t : Summand α} :
    Distinct (ms ++ [t]) ↔ Distinct ms ∧ ∀ m ∈ ms, sameAll m.factors t.factors = false := by
  rw [Distinct, Distinct, List.map_append, List.pairwise_append]
  simp

/-- **Merging leaves distinct terms**, each with the factors of a term, sorted. -/
theorem distinct_mergeTerms (ts : List (Summand α)) : Distinct (mergeTerms ts) ∧
    ((mergeTerms ts).map Summand.factors).Sublist (ts.map fun t => sortFactors t.factors) := by
  suffices hfold : ∀ ms us : List (Summand α), Distinct ms →
      (ms.map Summand.factors).Sublist (us.map fun t => sortFactors t.factors) →
      Distinct (ts.foldl (fun merged t => mergeTerm ⟨t.coeff, sortFactors t.factors⟩ merged) ms) ∧
        ((ts.foldl (fun merged t => mergeTerm ⟨t.coeff, sortFactors t.factors⟩ merged) ms).map Summand.factors).Sublist
          ((us ++ ts).map fun t => sortFactors t.factors) from hfold [] [] .nil .slnil
  induction ts with
  | nil =>
    intro ms us hms hsub
    rw [List.append_nil]
    exact ⟨hms, hsub⟩
  | cons t ts ih =>
    intro ms us hms hsub
    rw [List.foldl_cons, show us ++ t :: ts = us ++ [t] ++ ts by simp]
    have hmore := hsub.append (List.Sublist.refl [sortFactors t.factors])
    rcases factors_mergeTerm ⟨t.coeff, sortFactors t.factors⟩ ms with hsame | hnew
    · refine ih _ (us ++ [t]) ?_ ?_
      · rw [Distinct, hsame]
        exact hms
      · rw [hsame, List.map_append]
        exact (List.sublist_append_left _ _).trans hmore
    · rw [mergeTerm_new hnew]
      refine ih _ (us ++ [t]) (distinct_append_singleton.mpr ⟨hms, hnew⟩) ?_
      rw [List.map_append, List.map_append]
      exact hmore

/-- Terms are merged without effect where they are sorted and distinct. -/
theorem mergeTerms_eq {ts : List (Summand α)} (hsorted : ∀ t ∈ ts, sortFactors t.factors = t.factors)
    (hdistinct : Distinct ts) : mergeTerms ts = ts := by
  suffices hfold : ∀ ms : List (Summand α), Distinct (ms ++ ts) →
      ts.foldl (fun merged t => mergeTerm ⟨t.coeff, sortFactors t.factors⟩ merged) ms = ms ++ ts from hfold [] hdistinct
  clear hdistinct
  induction ts with
  | nil =>
    intro ms _
    rw [List.append_nil]
    rfl
  | cons t ts ih =>
    intro ms hms
    obtain ⟨ht, hts⟩ := List.forall_mem_cons.mp hsorted
    rw [show ms ++ t :: ts = ms ++ [t] ++ ts by simp] at hms ⊢
    have hnew : Distinct (ms ++ [t]) := by
      rw [Distinct, List.map_append] at hms
      exact (List.pairwise_append.mp hms).1
    rw [List.foldl_cons, ht, show (⟨t.coeff, t.factors⟩ : Summand α) = t from rfl,
      mergeTerm_new (distinct_append_singleton.mp hnew).2]
    exact ih hts _ hms

omit [Scalar α] in
theorem ordered_constantFirst (ts : List (Summand α)) : Ordered (constantFirst ts) := by
  have hfilter : ∀ {p : Summand α → Bool} {fs}, fs ∈ (ts.filter p).map Summand.factors →
      ∃ t, p t = true ∧ t.factors = fs := fun hfs => by
      obtain ⟨t, ht, rfl⟩ := List.mem_map.mp hfs
      exact ⟨t, (List.mem_filter.mp ht).2, rfl⟩
  rw [Ordered, constantFirst, List.map_append, List.pairwise_append]
  refine ⟨List.pairwise_of_forall_mem_list ?_, List.pairwise_of_forall_mem_list ?_, ?_⟩
  · intro fs hfs gs _ _
    obtain ⟨t, ht, rfl⟩ := hfilter hfs
    exact List.isEmpty_iff.mp ht
  · intro fs _ gs hgs hempty
    obtain ⟨t, ht, rfl⟩ := hfilter hgs
    rw [hempty] at ht
    cases ht
  · intro fs hfs gs _ _
    obtain ⟨t, ht, rfl⟩ := hfilter hfs
    exact List.isEmpty_iff.mp ht

omit [Scalar α] in
/-- Where the constants come first there is nothing to order. -/
theorem constantFirst_eq {ts : List (Summand α)} (h : Ordered ts) : constantFirst ts = ts := by
  induction ts with
  | nil => rfl
  | cons t ts ih =>
    rw [Ordered, List.map_cons, List.pairwise_cons] at h
    have hts := ih h.2
    cases hfactors : t.factors with
    | nil =>
      rw [constantFirst, List.filter_cons_of_pos (by simp [hfactors]), List.filter_cons_of_neg (by simp [hfactors])]
      exact congrArg (t :: ·) hts
    | cons f fs =>
      have hnone : ∀ u ∈ ts, u.factors.isEmpty = false := fun u hu => by
        by_contra hempty
        have := h.1 u.factors (List.mem_map_of_mem hu) (by simpa using hempty)
        rw [hfactors] at this
        cases this
      have hall : ∀ u ∈ t :: ts, u.factors.isEmpty = false :=
        List.forall_mem_cons.mpr ⟨by rw [hfactors]; rfl, hnone⟩
      rw [constantFirst, List.filter_eq_nil_iff.mpr fun u hu => by rw [hall u hu]; exact Bool.false_ne_true,
        List.filter_eq_self.mpr fun u hu => by rw [hall u hu]; rfl, List.nil_append]

theorem distinct_constantFirst {ts : List (Summand α)} (h : Distinct ts) : Distinct (constantFirst ts) := by
  rw [Distinct, constantFirst, List.map_append, List.pairwise_append]
  refine ⟨h.sublist (List.filter_sublist.map _), h.sublist (List.filter_sublist.map _), fun fs hfs gs hgs => ?_⟩
  obtain ⟨s, hs, rfl⟩ := List.mem_map.mp hfs
  obtain ⟨t, ht, rfl⟩ := List.mem_map.mp hgs
  rw [List.isEmpty_iff.mp (List.mem_filter.mp hs).2]
  have hne := (List.mem_filter.mp ht).2
  cases hfactors : t.factors with
  | nil =>
    rw [hfactors] at hne
    cases hne
  | cons f fs => rfl

/-- The factors of collected terms are those of a term, sorted. -/
theorem exists_factors_of_mem_collected {ts : List (Summand α)} {s : Summand α}
    (hs : s ∈ constantFirst ((mergeTerms ts).filter Summand.stays)) :
    s.stays = true ∧ ∃ u ∈ ts, sortFactors u.factors = s.factors := by
  obtain ⟨hs, hstays⟩ := List.mem_filter.mp ((constantFirst_perm _).mem_iff.mp hs)
  exact ⟨hstays, List.mem_map.mp ((distinct_mergeTerms ts).2.mem (List.mem_map_of_mem hs))⟩

/-- **Collecting leaves terms that are ready.** -/
theorem ready_collected (t : Term α) :
    Ready (constantFirst ((mergeTerms (readTerms t one)).filter Summand.stays)) := by
  refine ⟨fun s hs => ?_, distinct_constantFirst ((distinct_mergeTerms _).1.sublist (List.filter_sublist.map _)),
    ordered_constantFirst _⟩
  obtain ⟨hstays, u, hu, hfactors⟩ := exists_factors_of_mem_collected hs
  have hread := Summand.Read.perm (c := u.coeff) (d := s.coeff) (sortFactors_perm u.factors) (read_of_mem_readTerms hu)
  rw [hfactors] at hread
  exact ⟨hread, by rw [← hfactors, sortFactors_idem], hstays⟩

/-- **To terms that are ready nothing happens.** -/
theorem collect_ready {ts : List (Summand α)} (h : Ready ts) :
    constantFirst ((mergeTerms ts).filter Summand.stays) = ts := by
  rw [mergeTerms_eq (fun t ht => (h.written t ht).sorted) h.distinct,
    List.filter_eq_self.mpr fun t ht => (h.written t ht).stays, constantFirst_eq h.ordered]

/-! ## Reading what was written -/

/-- Two terms have the same factors, and coefficients that are the same literal. -/
structure Summand.Alike (s t : Summand α) : Prop where
  coeff : Scalar.same s.coeff t.coeff = true
  factors : s.factors = t.factors

theorem readFactors_atom {f : Term α} (hf : f.isAtom = true) (inverted : Bool) (c : α) :
    readFactors f inverted c = (c, [(f, inverted)]) := by
  cases f with
  | literal | negate => cases hf
  | binary l op a b =>
    cases op with
    | mul | div => cases hf
    | _ => rfl
  | _ => rfl

theorem readFactors_times {g : Term α} {rest : List (Term α)} (hrest : ∀ f ∈ rest, f.isAtom = true) (c : α) :
    readFactors (times g rest) false c =
      ((readFactors g false c).1, (readFactors g false c).2 ++ rest.map (·, false)) := by
  induction rest generalizing g with
  | nil => simp [times]
  | cons f rest ih =>
    obtain ⟨hf, hrest⟩ := List.forall_mem_cons.mp hrest
    change readFactors (times (.binary () .mul g f) rest) false c = _
    rw [ih hrest, readFactors, readFactors_atom hf]
    simp

omit [Scalar α] in
theorem isAdditive_times {g : Term α} {rest : List (Term α)} (h : g.isAdditive = false) :
    (times g rest).isAdditive = false := by
  induction rest generalizing g with
  | nil => exact h
  | cons f rest ih => exact ih (g := .binary () .mul g f) rfl

theorem isAdditive_writeTerm {c : α} {fs : List (Term α)} (hfs : Summand.Read ⟨c, fs⟩) :
    (writeTerm c fs).isAdditive = false := by
  unfold writeTerm
  split
  · cases fs with
    | nil => rfl
    | cons f rest =>
      cases rest with
      | nil => exact hfs.alone f rfl
      | cons g rest => exact isAdditive_times (g := .binary () .mul f g) rfl
  · exact isAdditive_times rfl

/-- A number with the sign of a summand or of a subtrahend. -/
def signed (negative : Bool) (c : α) : α := if negative then Scalar.neg c else c

/-- The absolute value with the sign of the number. -/
def resigned (c : α) : α := signed (Scalar.lt c zero) (Scalar.abs c)

section Laws

variable [Coefficients α]

theorem same_signed (negative : Bool) {c d : α} (h : Scalar.same c d = true) :
    Scalar.same (signed negative c) (signed negative d) = true := by
  cases negative with
  | false => exact h
  | true => exact Coefficients.neg_same h

theorem same_mul_signed (negative : Bool) (c : α) :
    Scalar.same (Scalar.mul (signed negative one) c) (signed negative c) = true := by
  cases negative with
  | false => exact Coefficients.one_mul c
  | true => exact Coefficients.neg_one_mul c

theorem same_resigned (c : α) : Scalar.same (resigned c) c = true := by
  rw [resigned]
  cases h : Scalar.lt c zero with
  | false => exact Coefficients.abs_self h
  | true => exact Coefficients.neg_abs h

theorem same_of_eq_one {c : α} (h : Scalar.eq c one = true) : Scalar.same one c = true :=
  Coefficients.same_symm ((Bool.or_eq_true ..).mpr (.inl h))

/-- **A term is read as it was written**, with the sign under which it stands. -/
theorem readFactors_writeTerm {c : α} {fs : List (Term α)} (hfs : Summand.Read ⟨c, fs⟩) (negative : Bool) :
    ∃ d, readFactors (writeTerm c fs) false (signed negative one) = (d, fs.map (·, false)) ∧
      Scalar.same d (signed negative c) = true := by
  unfold writeTerm
  split
  · next hone =>
    have hsign : Scalar.same (signed negative one) (signed negative c) = true :=
      same_signed negative (same_of_eq_one hone)
    cases fs with
    | nil => exact ⟨_, rfl, Coefficients.same_trans (same_mul_signed negative one) hsign⟩
    | cons f rest =>
      obtain ⟨hf, hrest⟩ := List.forall_mem_cons.mp hfs.atoms
      refine ⟨_, ?_, hsign⟩
      rw [readFactors_times hrest, readFactors_atom hf]
      rfl
  · refine ⟨_, ?_, same_mul_signed negative c⟩
    rw [readFactors_times hfs.atoms]
    rfl

theorem readTerms_writeTerm {c : α} {fs : List (Term α)} (hfs : Summand.Read ⟨c, fs⟩) (negative : Bool) :
    ∃ d, readTerms (writeTerm c fs) (signed negative one) = [⟨d, fs⟩] ∧ Scalar.same d (signed negative c) = true := by
  obtain ⟨d, hread, hd⟩ := readFactors_writeTerm hfs negative
  refine ⟨d, ?_, hd⟩
  have hfactors : (fs.map (·, false)).map (fun f => if f.2 then reciprocal f.1 else f.1) = fs :=
    (List.map_map).trans (List.map_id fs)
  rw [readTerms_of_not_additive (isAdditive_writeTerm hfs) (scaledSum?_eq_none hread hfs.alone), readProduct, hread]
  dsimp only
  rw [hfactors]

/-- A summand that is added is read behind those that were read before. -/
theorem readTerms_addTerm (sum : Term α) {t : Summand α} (ht : t.Read) :
    ∃ s : Summand α, readTerms (addTerm sum t) one = readTerms sum one ++ [s] ∧ s.Alike t := by
  obtain ⟨d, hread, hd⟩ := readTerms_writeTerm (c := Scalar.abs t.coeff) (Summand.Read.perm (.refl _) ht)
    (Scalar.lt t.coeff zero)
  refine ⟨⟨d, t.factors⟩, ?_, Coefficients.same_trans hd (same_resigned t.coeff), rfl⟩
  rw [← hread, addTerm]
  cases Scalar.lt t.coeff zero with
  | true => rw [if_pos rfl, readTerms]; rfl
  | false => rw [if_neg Bool.false_ne_true, readTerms]; rfl

/-- **The terms of a written sum** are read as they were. -/
theorem alike_readTerms_writeTerms {ts : List (Summand α)} (hts : ∀ t ∈ ts, t.Read) (hne : ts ≠ []) :
    List.Forall₂ Summand.Alike (readTerms (writeTerms ts) one) ts := by
  have hrest : ∀ (rest : List (Summand α)) (sum : Term α) (before : List (Summand α)), (∀ t ∈ rest, t.Read) →
      List.Forall₂ Summand.Alike (readTerms sum one) before →
      List.Forall₂ Summand.Alike (readTerms (rest.foldl addTerm sum) one) (before ++ rest) := by
    intro rest
    induction rest with
    | nil =>
      intro sum before _ hsum
      rwa [List.append_nil]
    | cons t rest ih =>
      intro sum before hread hsum
      obtain ⟨ht, hread⟩ := List.forall_mem_cons.mp hread
      obtain ⟨s, hs, halike⟩ := readTerms_addTerm sum ht
      rw [List.foldl_cons, show before ++ t :: rest = before ++ [t] ++ rest by simp]
      refine ih _ _ hread ?_
      rw [hs]
      exact List.rel_append hsum (.cons halike .nil)
  cases ts with
  | nil => exact absurd rfl hne
  | cons t rest =>
    obtain ⟨ht, hrest'⟩ := List.forall_mem_cons.mp hts
    obtain ⟨d, hread, hd⟩ := readTerms_writeTerm (c := t.coeff) ht false
    refine hrest rest _ [t] hrest' ?_
    rw [show readTerms (writeTerm t.coeff t.factors) one = [⟨d, t.factors⟩] from hread]
    exact .cons ⟨hd, rfl⟩ .nil

/-! ## Collecting twice -/

theorem Summand.Alike.written {s t : Summand α} (h : s.Alike t) (ht : t.Written) : s.Written where
  atoms := h.factors ▸ ht.atoms
  alone := h.factors ▸ ht.alone
  sorted := h.factors ▸ ht.sorted
  stays := by
    rw [Summand.stays, Coefficients.isZero_eq h.coeff, h.factors]
    exact ht.stays

omit [Coefficients α] in
theorem factors_of_alike {ts us : List (Summand α)} (h : List.Forall₂ Summand.Alike ts us) :
    ts.map Summand.factors = us.map Summand.factors := by
  induction h with
  | nil => rfl
  | cons htu _ ih => exact congrArg₂ List.cons htu.factors ih

theorem written_of_alike {ts us : List (Summand α)} (h : List.Forall₂ Summand.Alike ts us)
    (hus : ∀ t ∈ us, t.Written) : ∀ s ∈ ts, s.Written := by
  induction h with
  | nil => exact nofun
  | cons htu _ ih =>
    obtain ⟨hu, hus⟩ := List.forall_mem_cons.mp hus
    exact List.forall_mem_cons.mpr ⟨htu.written hu, ih hus⟩

/-- **Terms with the same factors and the same literals as coefficients are ready, too.** -/
theorem Ready.of_alike {ts us : List (Summand α)} (hus : Ready us) (h : List.Forall₂ Summand.Alike ts us) :
    Ready ts where
  written := written_of_alike h hus.written
  distinct := by
    rw [Distinct, factors_of_alike h]
    exact hus.distinct
  ordered := by
    rw [Ordered, factors_of_alike h]
    exact hus.ordered

theorem same_times {a b : Term α} (h : a.same b = true) (fs : List (Term α)) :
    (times a fs).same (times b fs) = true := by
  induction fs generalizing a b with
  | nil => exact h
  | cons f fs ih =>
    refine ih (a := .binary () .mul a f) (b := .binary () .mul b f) ?_
    rw [same, h, same_of_term_eq Coefficients.same_refl f f rfl]
    rfl

theorem same_writeTerm {c d : α} (h : Scalar.same c d = true) (fs : List (Term α)) :
    (writeTerm c fs).same (writeTerm d fs) = true := by
  unfold writeTerm
  rw [Coefficients.eq_one h]
  split
  · exact same_of_term_eq Coefficients.same_refl _ _ rfl
  · exact same_times (a := .literal () c) (b := .literal () d) h fs

theorem same_addTerm {a b : Term α} (h : a.same b = true) {s t : Summand α} (hst : s.Alike t) :
    (addTerm a s).same (addTerm b t) = true := by
  rw [addTerm, addTerm, same, h, hst.factors, same_writeTerm (Coefficients.abs_same hst.coeff),
    Coefficients.lt_zero hst.coeff]
  simp

theorem same_writeTerms {ts us : List (Summand α)} (h : List.Forall₂ Summand.Alike ts us) :
    (writeTerms ts).same (writeTerms us) = true := by
  have hrest : ∀ {ts us : List (Summand α)} {a b : Term α}, List.Forall₂ Summand.Alike ts us → a.same b = true →
      (ts.foldl addTerm a).same (us.foldl addTerm b) = true := by
    intro ts us a b h
    induction h generalizing a b with
    | nil => exact id
    | cons hst _ ih => exact fun hab => ih (same_addTerm hab hst)
  cases h with
  | nil => exact Coefficients.same_refl _
  | @cons s t ss ts hst h =>
    refine hrest h ?_
    rw [hst.factors]
    exact same_writeTerm hst.coeff _

/-- **A written sum is collected already.** -/
theorem same_collectSum_writeTerms {ts : List (Summand α)} (hts : Ready ts) (hne : ts ≠ []) :
    (writeTerms ts).same (collectSum (writeTerms ts)) = true := by
  have halike := alike_readTerms_writeTerms (fun t ht => (hts.written t ht).toRead) hne
  rw [collectSum, collect_ready (hts.of_alike halike)]
  refine same_writeTerms (halike.flip.imp fun s t hst => ⟨Coefficients.same_symm hst.coeff, hst.factors.symm⟩)

end Laws

end Rewrite

end SignalFlow
