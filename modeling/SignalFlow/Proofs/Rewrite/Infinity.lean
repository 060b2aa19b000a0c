import SignalFlow.Proofs.Rewrite.Undefined
import SignalFlow.Proofs.Rewrite.Written

/-!
# Collecting keeps infinity

A term with an infinite factor stays in its sum whatever its coefficient is, and like terms have infinite factors
together. A coefficient that is not finite is not zero, and remains so whatever is added to it. Either is a property of
terms that lasts (`Lasting`): it is found among the terms of the new sum if it was among those of the old one. So a sum
has the defects that cannot cancel when its like terms are collected (`spares_collect`).
-/

namespace SignalFlow

open SignalFlow.Tree

variable {α : Type}

namespace Tree

theorem hasInfinity_iff {t : Term α} :
    t.hasInfinity = true ↔ t.isInfinity = true ∨ ∃ c ∈ t.children, c.hasInfinity = true := by
  simp only [hasInfinity]
  rw [preorder_eq, List.any_cons, List.any_flatMap, Bool.or_eq_true, List.any_eq_true]

/-- Infinity occurs in what it makes undefined. -/
theorem Boundless.hasInfinity {t : Term α} (ht : t.Boundless) : t.hasInfinity = true := by
  induction t using childInduction with
  | h t ih =>
    rw [hasInfinity_iff]
    cases t with
    | literal | var => cases ht
    | infinity => exact .inl rfl
    | negate l t => exact .inr ⟨t, List.mem_cons_self, ih t List.mem_cons_self ht⟩
    | binary l op a b =>
      have hb : b ∈ (Tree.binary l op a b).children := List.mem_cons_of_mem _ (List.mem_singleton_self b)
      rcases ht.operand with hinfinite | hinfinite
      · exact .inr ⟨a, List.mem_cons_self, ih a List.mem_cons_self hinfinite⟩
      · exact .inr ⟨b, hb, ih b hb hinfinite⟩
    | list l items =>
      obtain ⟨t, ht, hinfinite⟩ := boundlessAny_iff.mp ht
      exact .inr ⟨t, ht, ih t ht hinfinite⟩

variable [Scalar α]

mutual

/-- Infinity makes trees that agree undefined together. -/
theorem boundless_congr {t u : Term α} (h : t.same u = true) : t.Boundless ↔ u.Boundless := by
  match t, u with
  | .literal _ _, .literal _ _ | .var _ _, .var _ _ | .infinity _, .infinity _ => rfl
  | .negate _ t, .negate _ u => exact boundless_congr (t := t) (u := u) h
  | .binary _ op a b, .binary _ op' a' b' =>
    obtain ⟨hop, hab⟩ := (Bool.and_eq_true _ _).mp h
    obtain ⟨ha, hb⟩ := (Bool.and_eq_true _ _).mp hab
    obtain rfl : op = op' := eq_of_beq hop
    exact ⟨fun h => h.mono (boundless_congr ha).mp (boundless_congr hb).mp,
      fun h => h.mono (boundless_congr ha).mpr (boundless_congr hb).mpr⟩
  | .list _ items, .list _ others =>
    have hitems : sameAll items others = true := h
    exact boundlessAny_congr hitems

theorem boundlessAny_congr {ts us : List (Term α)} (h : sameAll ts us = true) : BoundlessAny ts ↔ BoundlessAny us := by
  match ts, us with
  | [], [] => rfl
  | t :: ts, u :: us =>
    obtain ⟨ht, hts⟩ := (Bool.and_eq_true _ _).mp h
    exact or_congr (boundless_congr ht) (boundlessAny_congr hts)

end

end Tree

namespace Rewrite

variable [Scalar α]

/-! ## Reading factors -/

/-- **A product that infinity makes undefined has an infinite factor**, and this one does not divide. -/
theorem boundless_readFactors {t : Term α} {inverted : Bool} (ht : t.Boundless) (hinverted : inverted = false)
    (c : α) : ∃ f, (f, false) ∈ (readFactors t inverted c).2 ∧ f.Boundless := by
  fun_induction readFactors t inverted c with
  | case1 | case2 | case3 => cases ht
  | case4 _ a b inverted c left right iha ihb =>
    rcases ht with ha | hb
    · obtain ⟨f, hf, hinfinite⟩ := iha ha hinverted
      exact ⟨f, List.mem_append_left _ hf, hinfinite⟩
    · obtain ⟨f, hf, hinfinite⟩ := ihb hb hinverted
      exact ⟨f, List.mem_append_right _ hf, hinfinite⟩
  | case5 _ a b inverted c left right iha ihb =>
    obtain ⟨f, hf, hinfinite⟩ := iha ht hinverted
    exact ⟨f, List.mem_append_left _ hf, hinfinite⟩
  | case6 _ t inverted c ih => exact ih ht hinverted
  | case7 t inverted c =>
    subst hinverted
    exact ⟨t, List.mem_singleton_self _, ht⟩

section Absorbing

variable [Scalar.Absorbing α]

omit [Scalar.Absorbing α] in
theorem readFactors_of_additive {t : Term α} (ht : t.isAdditive = true) (inverted : Bool) (c : α) :
    readFactors t inverted c = (c, [(t, inverted)]) := by
  cases t with
  | binary l op a b =>
    cases op with
    | add | sub => rw [readFactors] <;> simp
    | _ => cases ht
  | _ => cases ht

/-- What a coefficient that is not finite is multiplied by does not make it finite. -/
theorem diverges_readFactors {t : Term α} {inverted : Bool} {c : α} (hc : (Scalar.defect c).diverges) :
    (Scalar.defect (readFactors t inverted c).1).diverges := by
  fun_induction readFactors t inverted c with
  | case1 l v inverted c => exact (Scalar.Absorbing.defect_le_apply .mul c v).diverges (.inl hc)
  | case2 l v inverted c => exact (Scalar.Absorbing.defect_le_apply .div c v).diverges (.inl hc)
  | case3 => exact hc
  | case4 _ a b inverted c left right iha ihb | case5 _ a b inverted c left right iha ihb => exact ihb (iha hc)
  | case6 _ t inverted c ih => exact ih ((Scalar.Absorbing.defect_le_neg c).diverges hc)
  | case7 => exact hc

/-- **A literal factor that is not finite makes the coefficient so.** -/
theorem endless_readFactors {t : Term α} {inverted : Bool} (ht : t.EndlessFactor) (hinverted : inverted = false)
    (c : α) : (Scalar.defect (readFactors t inverted c).1).diverges := by
  fun_induction readFactors t inverted c with
  | case1 l v inverted c => exact (Scalar.Absorbing.defect_le_apply .mul c v).diverges (.inr ht)
  | case2 l v inverted c h | case3 l v inverted c h =>
    rw [hinverted] at h
    exact absurd rfl h
  | case4 _ a b inverted c left right iha ihb =>
    rcases ht with ha | hb
    · exact diverges_readFactors (iha ha hinverted)
    · exact ihb hb hinverted
  | case5 _ a b inverted c left right iha ihb => exact diverges_readFactors (iha ht hinverted)
  | case6 _ t inverted c ih => exact ih ht hinverted
  | case7 t inverted c hliteral hmul hdiv hnegate =>
    have hatom := isAtom_of_not hliteral hmul hdiv hnegate
    cases t with
    | binary l op a b =>
      cases op with
      | mul | div => cases hatom
      | _ => exact ht.elim
    | literal | negate => cases hatom
    | _ => exact ht.elim

/-- A product that has such a term has such a coefficient, or it is a sum that has one with a sign in front. -/
theorem endless_of_not_additive {t : Term α} (ht : t.EndlessTerm) (hadditive : t.isAdditive = false) (c : α) :
    (Scalar.defect (readFactors t false c).1).diverges ∨
      ∃ s, s.isAdditive = true ∧ s.EndlessTerm ∧ (readFactors t false c).2 = [(s, false)] := by
  fun_induction EndlessTerm t generalizing c with
  | case1 | case2 => cases hadditive
  | case3 l t ih =>
    rw [readFactors]
    cases hsum : t.isAdditive with
    | true => exact .inr ⟨t, hsum, ht, by rw [readFactors_of_additive hsum]⟩
    | false => exact ih ht hsum (Scalar.neg c)
  | case4 => exact .inl (endless_readFactors ht rfl c)

end Absorbing

/-! ## Reading terms -/

/-- **A sum that infinity makes undefined has a term with an infinite factor.** -/
theorem boundless_readTerms {t : Term α} (ht : t.Boundless) (sign : α) :
    ∃ s ∈ readTerms t sign, BoundlessAny s.factors := by
  fun_induction readTerms t sign with
  | case1 sign _ a b iha ihb | case2 sign _ a b iha ihb =>
    rcases ht with ha | hb
    · obtain ⟨s, hs, hinfinite⟩ := iha ha
      exact ⟨s, List.mem_append_left _ hs, hinfinite⟩
    · obtain ⟨s, hs, hinfinite⟩ := ihb hb
      exact ⟨s, List.mem_append_right _ hs, hinfinite⟩
  | case3 sign t hadd hsub c s hs h ih =>
    obtain ⟨f, hf, hinfinite⟩ := boundless_readFactors ht rfl sign
    rw [(scaledSum?_eq_some h).1, List.mem_singleton, Prod.mk.injEq] at hf
    obtain ⟨rfl, -⟩ := hf
    exact ih hinfinite
  | case4 sign t hadd hsub h =>
    obtain ⟨f, hf, hinfinite⟩ := boundless_readFactors ht rfl sign
    exact ⟨_, List.mem_singleton_self _, boundlessAny_iff.mpr ⟨f, List.mem_map_of_mem hf, hinfinite⟩⟩

section Absorbing

variable [Scalar.Absorbing α]

/-- Whatever a sum is, multiplied by a coefficient that is not finite it has such a term. -/
theorem diverges_readTerms (t : Term α) {sign : α} (hsign : (Scalar.defect sign).diverges) :
    ∃ s ∈ readTerms t sign, (Scalar.defect s.coeff).diverges := by
  fun_induction readTerms t sign with
  | case1 sign _ a b iha | case2 sign _ a b iha =>
    obtain ⟨s, hs, hdiverges⟩ := iha hsign
    exact ⟨s, List.mem_append_left _ hs, hdiverges⟩
  | case3 sign t hadd hsub c s hs h ih =>
    have hc : (Scalar.defect (readFactors t false sign).1).diverges := diverges_readFactors hsign
    rw [(scaledSum?_eq_some h).1] at hc
    exact ih hc
  | case4 sign t => exact ⟨_, List.mem_singleton_self _, diverges_readFactors hsign⟩

/-- **A sum with a literal factor that is not finite has a coefficient that is not finite.** -/
theorem endless_readTerms {t : Term α} (ht : t.EndlessTerm) (sign : α) :
    ∃ s ∈ readTerms t sign, (Scalar.defect s.coeff).diverges := by
  fun_induction readTerms t sign with
  | case1 sign _ a b iha ihb | case2 sign _ a b iha ihb =>
    rcases ht with ha | hb
    · obtain ⟨s, hs, hdiverges⟩ := iha ha
      exact ⟨s, List.mem_append_left _ hs, hdiverges⟩
    · obtain ⟨s, hs, hdiverges⟩ := ihb hb
      exact ⟨s, List.mem_append_right _ hs, hdiverges⟩
  | case3 sign t hadd hsub c s hs h ih =>
    obtain ⟨hread, -, hadditive⟩ := scaledSum?_eq_some h
    have hterm := endless_of_not_additive ht hadditive sign
    rw [hread] at hterm
    rcases hterm with hc | ⟨u, -, hu, heq⟩
    · exact diverges_readTerms s hc
    · obtain rfl : s = u := congrArg Prod.fst (List.singleton_inj.mp heq)
      exact ih hu
  | case4 sign t hadd hsub h =>
    have hadditive := isAdditive_eq_false hadd hsub
    rcases endless_of_not_additive ht hadditive sign with hc | ⟨u, hu, -, hread⟩
    · exact ⟨_, List.mem_singleton_self _, hc⟩
    · have hsome := isSome_scaledSum? hadditive hread hu
      rw [h] at hsome
      cases hsome

end Absorbing

/-! ## Properties that last -/

/-- **A property of terms that collecting keeps**, and what it means for the sum that is written of them. -/
structure Lasting (P : Summand α → Prop) (Q : Term α → Prop) : Prop where
  merge {m t : Summand α} : sameAll m.factors t.factors = true → P m ∨ P t → P ⟨Scalar.add m.coeff t.coeff, m.factors⟩
  sort {t : Summand α} : P t → P ⟨t.coeff, sortFactors t.factors⟩
  stays {t : Summand α} : P t → t.stays = true
  abs {t : Summand α} : P t → P ⟨Scalar.abs t.coeff, t.factors⟩
  write {t : Summand α} : P t → Q (writeTerm t.coeff t.factors)
  sum {op : BinaryOp} {a b : Term α} : op.isAdditive = true → Q a ∨ Q b → Q (.binary () op a b)

namespace Lasting

variable {P : Summand α → Prop} {Q : Term α → Prop}

/-- **Merging a term keeps the property**, of the term or of one before. -/
theorem exists_mergeTerm (hP : Lasting P Q) {t : Summand α} {ms : List (Summand α)} (h : P t ∨ ∃ m ∈ ms, P m) :
    ∃ m ∈ mergeTerm t ms, P m := by
  induction ms with
  | nil => exact ⟨t, List.mem_singleton_self t, h.resolve_right (by simp)⟩
  | cons m rest ih =>
    rw [List.exists_mem_cons_iff] at h
    rw [mergeTerm]
    split
    · next hsame =>
      rw [List.exists_mem_cons_iff]
      rcases h with ht | hm | hrest
      · exact .inl (hP.merge hsame (.inr ht))
      · exact .inl (hP.merge hsame (.inl hm))
      · exact .inr hrest
    · rw [List.exists_mem_cons_iff]
      rcases h with ht | hm | hrest
      · exact .inr (ih (.inl ht))
      · exact .inl hm
      · exact .inr (ih (.inr hrest))

/-- **Merging like terms keeps the property.** -/
theorem exists_mergeTerms (hP : Lasting P Q) {ts : List (Summand α)} (h : ∃ t ∈ ts, P t) :
    ∃ m ∈ mergeTerms ts, P m := by
  -- It is among the terms merged so far or those still to come.
  suffices hfold : ∀ ms : List (Summand α), ((∃ t ∈ ts, P t) ∨ ∃ m ∈ ms, P m) →
      ∃ m ∈ ts.foldl (fun merged t => mergeTerm ⟨t.coeff, sortFactors t.factors⟩ merged) ms, P m from hfold [] (.inl h)
  clear h
  induction ts with
  | nil => exact fun ms h => h.resolve_left (by simp)
  | cons t ts ih =>
    intro ms h
    refine ih _ ?_
    rw [List.exists_mem_cons_iff] at h
    rcases h with (ht | hts) | hms
    · exact .inr (hP.exists_mergeTerm (.inl (hP.sort ht)))
    · exact .inl hts
    · exact .inr (hP.exists_mergeTerm (.inr hms))

theorem addTerm (hP : Lasting P Q) {sum : Term α} {s : Summand α} (h : Q sum ∨ P s) : Q (addTerm sum s) := by
  rw [Rewrite.addTerm]
  refine hP.sum ?_ (h.imp_right fun hs => hP.write (hP.abs hs))
  split <;> rfl

/-- **The sum of terms** of which one has the property. -/
theorem writeTerms (hP : Lasting P Q) {ts : List (Summand α)} (h : ∃ s ∈ ts, P s) : Q (writeTerms ts) := by
  have hfold : ∀ (rest : List (Summand α)) (sum : Term α), Q sum ∨ (∃ s ∈ rest, P s) →
      Q (rest.foldl Rewrite.addTerm sum) := by
    intro rest
    induction rest with
    | nil => exact fun sum h => h.resolve_right (by simp)
    | cons s rest ih =>
      intro sum h
      rw [List.exists_mem_cons_iff, ← or_assoc] at h
      exact ih _ (h.imp_left hP.addTerm)
  cases ts with
  | nil => simp at h
  | cons s rest =>
    rw [List.exists_mem_cons_iff] at h
    exact hfold rest _ (h.imp_left hP.write)

/-- **The property lasts when the like terms of a sum are collected.** -/
theorem collectSum (hP : Lasting P Q) {t : Term α} (h : ∃ s ∈ readTerms t Scalar.one, P s) : Q (collectSum t) := by
  obtain ⟨s, hs, hlasts⟩ := hP.exists_mergeTerms h
  refine hP.writeTerms ⟨s, (constantFirst_perm _).mem_iff.mpr ?_, hlasts⟩
  exact List.mem_filter.mpr ⟨hs, hP.stays hlasts⟩

end Lasting

/-! ## Infinite factors -/

omit [Scalar α] in
theorem boundless_times {g : Term α} {rest : List (Term α)}
    (h : g.Boundless ∨ BoundlessAny rest) : (times g rest).Boundless := by
  induction rest generalizing g with
  | nil => exact h.resolve_right id
  | cons f rest ih => exact ih (g := .binary () .mul g f) (or_assoc.mpr h)

/-- **Infinite factors last**: a term that has one stays, whatever its coefficient is. -/
theorem lasting_boundless : Lasting (fun s : Summand α => BoundlessAny s.factors) Boundless where
  merge hsame h := h.elim id (boundlessAny_congr hsame).mpr
  sort h := by
    obtain ⟨f, hf, hinfinite⟩ := boundlessAny_iff.mp h
    exact boundlessAny_iff.mpr ⟨f, (sortFactors_perm _).mem_iff.mpr hf, hinfinite⟩
  stays h := by
    obtain ⟨f, hf, hinfinite⟩ := boundlessAny_iff.mp h
    exact Bool.or_eq_true_iff.mpr (.inr (List.any_eq_true.mpr ⟨f, hf, Boundless.hasInfinity hinfinite⟩))
  abs := id
  write {t} h := by
    unfold writeTerm
    split
    · cases hfactors : t.factors with
      | nil =>
        rw [hfactors] at h
        exact h.elim
      | cons f rest =>
        rw [hfactors] at h
        exact boundless_times h
    · exact boundless_times (.inr h)
  sum {op a b} hadditive h := by
    cases op with
    | add | sub => exact h
    | _ => cases hadditive

/-! ## Coefficients that are not finite -/

section Absorbing

variable [Scalar.Absorbing α]

omit [Scalar.Absorbing α] in
theorem endless_times {g : Term α} {rest : List (Term α)} (h : g.EndlessFactor) : (times g rest).EndlessFactor := by
  induction rest generalizing g with
  | nil => exact h
  | cons f rest ih => exact ih (g := .binary () .mul g f) (.inl h)

/-- **Coefficients that are not finite last**: they are neither zero nor one, and nothing that is added makes them so. -/
theorem lasting_endless : Lasting (fun s : Summand α => (Scalar.defect s.coeff).diverges) EndlessTerm where
  merge {m t} _ h := (Scalar.Absorbing.defect_le_apply .add m.coeff t.coeff).diverges h
  sort := id
  stays {t} h := by
    have hzero : Scalar.isZero t.coeff ≠ true := fun hzero => Scalar.Absorbing.finite_of_isZero hzero h
    rw [Summand.stays, Bool.eq_false_iff.mpr hzero]
    rfl
  abs {t} h := (Scalar.Absorbing.defect_le_abs t.coeff).diverges h
  write {t} h := by
    have hone : Scalar.eq t.coeff Scalar.one ≠ true := fun hone => Scalar.Absorbing.finite_of_eq_one hone h
    unfold writeTerm
    rw [if_neg hone]
    have hliteral : (Tree.literal () t.coeff).EndlessFactor := h
    exact (endless_times hliteral).endlessTerm
  sum {op a b} hadditive h := by
    cases op with
    | add | sub => exact h
    | _ => cases hadditive

/-! ## The pass -/

/-- **Collecting like terms spares defects**, since nothing counts in a sum but what cannot cancel. -/
theorem spares_collect : (collectRule : Rule α).Spares true := by
  intro b t u h
  obtain ⟨rfl, hadditive, -, -⟩ := collectRule_eq_some h
  have hboundless : t.Boundless → (collectSum t).Boundless := fun ht =>
    lasting_boundless.collectSum (boundless_readTerms ht Scalar.one)
  have hendless : t.EndlessTerm → (collectSum t).EndlessTerm := fun ht =>
    lasting_endless.collectSum (endless_readTerms ht Scalar.one)
  cases t with
  | binary l op x y =>
    refine ⟨hboundless, fun h => (not_endlessFactor_of_additive hadditive h).elim, hendless, ?_⟩
    rw [defect_sum (show (true && op.isAdditive) = true from hadditive)]
    exact (lastingDefect_mono hboundless hendless).trans (lastingDefect_le _)
  | _ => cases hadditive

end Absorbing

end Rewrite

end SignalFlow
