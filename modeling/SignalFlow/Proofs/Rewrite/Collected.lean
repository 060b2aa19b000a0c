import SignalFlow.Proofs.Double.Coefficients
import SignalFlow.Proofs.Rewrite.Weigh

/-!
# Collected trees

A tree is `Collected` if each of its sums, unless it is an operand of one, is the sum that collecting its terms makes.
Collecting leaves such a tree (`collected_rewriteUp`), and to such a tree it does nothing (`rewriteUp_collected`), so
collecting twice is collecting once (`Expr.collectTerms_twice`).
-/

namespace SignalFlow

open SignalFlow.Tree
open Scalar (one Coefficients)

variable {α : Type} [Scalar α]

namespace Tree

mutual

/-- **The terms of every sum are collected.** The flag says whether the tree is itself an operand of a sum. -/
def Collected (inSum : Bool) : Term α → Prop
  | .literal _ _ | .var _ _ | .infinity _ => True
  | .negate _ t => Collected false t
  | .binary l op a b =>
    (Collected op.isAdditive a ∧ Collected op.isAdditive b) ∧
      (op.isAdditive = true → inSum = false →
        (Tree.binary l op a b).same (Rewrite.collectSum (.binary l op a b)) = true)
  | .list _ items => CollectedAll items

def CollectedAll : List (Term α) → Prop
  | [] => True
  | t :: ts => Collected false t ∧ CollectedAll ts

end

theorem collected_of_mem {ts : List (Term α)} (hts : CollectedAll ts) {t : Term α} (ht : t ∈ ts) :
    t.Collected false := by
  induction ts with
  | nil => cases ht
  | cons u ts ih =>
    rw [CollectedAll] at hts
    rcases List.mem_cons.mp ht with rfl | ht
    · exact hts.1
    · exact ih hts.2 ht

/-- As an operand of a sum less is asked of a tree. -/
theorem Collected.inSum {b : Bool} {t : Term α} (h : t.Collected b) : t.Collected true := by
  cases t with
  | binary l op x y =>
    rw [Collected] at h ⊢
    exact ⟨h.1, fun _ h => Bool.noConfusion h⟩
  | _ => exact h

/-- A tree that is no sum is collected if its operands are. -/
theorem Collected.of_not_additive {b : Bool} {t : Term α} (h : t.Collected b) (ht : t.isAdditive = false) :
    t.Collected false := by
  cases t with
  | binary l op x y =>
    have hop : op.isAdditive = false := ht
    rw [Collected] at h ⊢
    exact ⟨h.1, fun hadditive => by rw [hop] at hadditive; cases hadditive⟩
  | _ => exact h

/-- **A sum with collected operands** is collected if collecting does not change it. -/
theorem Collected.of_same {t : Term α} (h : t.Collected true)
    (ht : t.isAdditive = true → t.same (Rewrite.collectSum t) = true) : t.Collected false := by
  cases t with
  | binary l op x y =>
    rw [Collected] at h ⊢
    exact ⟨h.1, fun hop _ => ht hop⟩
  | _ => exact h

end Tree

namespace Rewrite

/-! ## Collecting leaves collected trees -/

theorem collected_reciprocal {t : Term α} (ht : t.Collected false) : (reciprocal t).Collected false := by
  unfold reciprocal
  split
  · rw [Collected] at ht ⊢
    exact ⟨⟨ht.1.1, trivial⟩, nofun⟩
  · rw [Collected]
    exact ⟨⟨ht, trivial⟩, nofun⟩

/-- The factors of a collected product are collected. -/
theorem collected_of_mem_readFactors {t : Term α} {inverted : Bool} {c : α} (ht : t.Collected false)
    {f : Term α × Bool} (h : f ∈ (readFactors t inverted c).2) : f.1.Collected false := by
  fun_induction readFactors t inverted c with
  | case1 | case2 => cases h
  | case3 => rwa [List.mem_singleton.mp h]
  | case4 _ a b inverted c left right iha ihb =>
    rw [Collected] at ht
    exact (List.mem_append.mp h).elim (iha ht.1.1) (ihb ht.1.2)
  | case5 _ a b inverted c left right iha ihb =>
    rw [Collected] at ht
    exact (List.mem_append.mp h).elim (iha ht.1.1) (ihb ht.1.2)
  | case6 _ t inverted c ih =>
    rw [Collected] at ht
    exact ih ht h
  | case7 => rwa [List.mem_singleton.mp h]

/-- **The factors of the terms of a sum with collected operands are collected.** -/
theorem collected_of_mem_readTerms {t : Term α} {sign : α} (ht : t.Collected true) {s : Summand α}
    (hs : s ∈ readTerms t sign) : ∀ f ∈ s.factors, f.Collected false := by
  fun_induction readTerms t sign with
  | case1 sign _ a b iha ihb | case2 sign _ a b iha ihb =>
    rw [Collected] at ht
    exact (List.mem_append.mp hs).elim (iha ht.1.1) (ihb ht.1.2)
  | case3 sign t hadd hsub c s' hs' h ih =>
    obtain ⟨hread, -, hadditive⟩ := scaledSum?_eq_some h
    have hmem : (s', false) ∈ (readFactors t false sign).2 := by
      rw [hread]
      exact List.mem_singleton_self _
    exact ih (collected_of_mem_readFactors (ht.of_not_additive hadditive) hmem).inSum hs
  | case4 sign t hadd hsub h =>
    obtain rfl := List.mem_singleton.mp hs
    change ∀ f ∈ (readFactors t false sign).2.map factor, f.Collected false
    rw [List.forall_mem_map]
    intro f hf
    have hfactor := collected_of_mem_readFactors (ht.of_not_additive (isAdditive_eq_false hadd hsub)) hf
    rw [factor]
    split
    · exact collected_reciprocal hfactor
    · exact hfactor

theorem collected_times {g : Term α} {rest : List (Term α)} (hg : g.Collected false)
    (hrest : ∀ f ∈ rest, f.Collected false) : (times g rest).Collected false := by
  induction rest generalizing g with
  | nil => exact hg
  | cons f rest ih =>
    obtain ⟨hf, hrest⟩ := List.forall_mem_cons.mp hrest
    refine ih (g := .binary () .mul g f) ?_ hrest
    rw [Collected]
    exact ⟨⟨hg, hf⟩, nofun⟩

theorem collected_writeTerm (c : α) {fs : List (Term α)} (hfs : ∀ f ∈ fs, f.Collected false) :
    (writeTerm c fs).Collected false := by
  unfold writeTerm
  split
  · cases fs with
    | nil => trivial
    | cons f rest =>
      obtain ⟨hf, hrest⟩ := List.forall_mem_cons.mp hfs
      exact collected_times hf hrest
  · exact collected_times (g := .literal () c) trivial hfs

theorem collected_writeTerms {ts : List (Summand α)} (hts : ∀ t ∈ ts, ∀ f ∈ t.factors, f.Collected false) :
    (writeTerms ts).Collected true := by
  have hrest : ∀ (rest : List (Summand α)) (sum : Term α), (∀ t ∈ rest, ∀ f ∈ t.factors, f.Collected false) →
      sum.Collected true → (rest.foldl addTerm sum).Collected true := by
    intro rest
    induction rest with
    | nil => exact fun sum _ hsum => hsum
    | cons t rest ih =>
      intro sum hrest hsum
      obtain ⟨ht, hrest⟩ := List.forall_mem_cons.mp hrest
      refine ih _ hrest ?_
      have hterm : (writeTerm (Scalar.abs t.coeff) t.factors).Collected true := (collected_writeTerm _ ht).inSum
      rw [addTerm, Collected]
      refine ⟨?_, fun _ h => Bool.noConfusion h⟩
      split <;> exact ⟨hsum, hterm⟩
  cases ts with
  | nil => trivial
  | cons t ts =>
    obtain ⟨ht, hts⟩ := List.forall_mem_cons.mp hts
    exact hrest ts _ hts (collected_writeTerm _ ht).inSum

/-- **A sum with collected operands is collected by collecting its terms.** -/
theorem collected_collectSum [Coefficients α] {t : Term α} (ht : t.Collected true) :
    (collectSum t).Collected false := by
  have hready := ready_collected t
  refine Collected.of_same (collected_writeTerms fun s hs f hf => ?_) fun hadditive => ?_
  · obtain ⟨-, u, hu, hfactors⟩ := exists_factors_of_mem_collected hs
    exact collected_of_mem_readTerms ht hu f ((sortFactors_perm _).mem_iff.mp (hfactors ▸ hf))
  · refine same_collectSum_writeTerms hready fun hnil => ?_
    rw [collectSum, hnil] at hadditive
    cases hadditive

/-- The sum of terms that are ready is collected. -/
theorem collected_of_ready [Coefficients α] {ts : List (Summand α)} (hts : Ready ts) (hne : ts ≠ [])
    (hfactors : ∀ t ∈ ts, ∀ f ∈ t.factors, f.Collected false) : (writeTerms ts).Collected false :=
  Collected.of_same (collected_writeTerms hfactors) fun _ => same_collectSum_writeTerms hts hne

theorem collected_count [Coefficients α] {b : Bool} {t : Term α} (ht : t.Collected true) :
    (collectRule.count b t).1.Collected b := by
  rw [Rule.count]
  cases h : collectRule b t with
  | some u =>
    obtain ⟨rfl, -, rfl, -⟩ := collectRule_eq_some h
    exact collected_collectSum ht
  | none =>
    cases b with
    | true => exact ht
    | false =>
      refine Collected.of_same ht fun hadditive => ?_
      by_contra hsame
      rw [collectRule, hadditive, Bool.eq_false_iff.mpr hsame] at h
      cases h

mutual

/-- **Collecting leaves a collected tree.** -/
theorem collected_rewriteUp [Coefficients α] (b : Bool) (t : Term α) : (rewriteUp collectRule b t).1.Collected b := by
  match t with
  | .literal _ _ | .var _ _ | .infinity _ => exact collected_count trivial
  | .negate _ t =>
    refine collected_count (t := .negate () _) ?_
    rw [Collected]
    exact collected_rewriteUp false t
  | .binary _ op x y =>
    refine collected_count (t := .binary () op _ _) ?_
    rw [Collected]
    exact ⟨⟨collected_rewriteUp op.isAdditive x, collected_rewriteUp op.isAdditive y⟩, fun _ h => Bool.noConfusion h⟩
  | .list _ items =>
    refine collected_count (t := .list () _) ?_
    rw [Collected]
    exact collected_rewriteUpAll items

theorem collected_rewriteUpAll [Coefficients α] (ts : List (Term α)) :
    CollectedAll (rewriteUpAll collectRule ts).1 := by
  match ts with
  | [] => trivial
  | t :: ts =>
    rw [rewriteUpAll, CollectedAll]
    exact ⟨collected_rewriteUp false t, collected_rewriteUpAll ts⟩

end

theorem collectRule_of_collected {b : Bool} {t : Term α} (ht : t.Collected b) : collectRule.count b t = (t, 0) := by
  have hnone : collectRule b t = none := by
    refine Option.eq_none_iff_forall_ne_some.mpr fun u hsome => ?_
    obtain ⟨rfl, hadditive, rfl, hsame⟩ := collectRule_eq_some hsome
    cases t with
    | binary l op x y =>
      rw [Collected] at ht
      rw [ht.2 hadditive rfl] at hsame
      cases hsame
    | _ => cases hadditive
  rw [Rule.count, hnone]

mutual

/-- **To a collected tree nothing happens.** -/
theorem rewriteUp_collected {b : Bool} {t : Term α} (ht : t.Collected b) : rewriteUp collectRule b t = (t, 0) := by
  match t with
  | .literal _ _ | .var _ _ | .infinity _ => exact collectRule_of_collected ht
  | .negate _ t =>
    have hroot := collectRule_of_collected ht
    rw [Collected] at ht
    rw [rewriteUp, rewriteUp_collected ht]
    dsimp only
    rw [hroot]
    rfl
  | .binary _ op x y =>
    have hroot := collectRule_of_collected ht
    rw [Collected] at ht
    rw [rewriteUp, rewriteUp_collected ht.1.1, rewriteUp_collected ht.1.2]
    dsimp only
    rw [hroot]
    rfl
  | .list _ items =>
    have hroot := collectRule_of_collected ht
    rw [Collected] at ht
    rw [rewriteUp, rewriteUpAll_collected ht]
    dsimp only
    rw [hroot]
    rfl

theorem rewriteUpAll_collected {ts : List (Term α)} (hts : CollectedAll ts) :
    rewriteUpAll collectRule ts = (ts, 0) := by
  match ts with
  | [] => rfl
  | t :: ts =>
    rw [CollectedAll] at hts
    rw [rewriteUpAll, rewriteUp_collected hts.1, rewriteUpAll_collected hts.2]

end

end Rewrite

namespace Expr

/-- **What collecting leaves is collected.** -/
theorem collected_collectTerms [Coefficients α] (e : Expr α) : e.collectTerms.1.tree.term.Collected false := by
  have hterm : e.collectTerms.1.tree.term = (Rewrite.rewriteUp Rewrite.collectRule false e.tree.term).1 :=
    (Pass.collectTerms.rewrite_term e).1
  rw [hterm]
  exact Rewrite.collected_rewriteUp false e.tree.term

/-- Collecting leaves a collected expression as it is, handles and all. -/
theorem collectTerms_of_collected {e : Expr α} (he : e.tree.term.Collected false) : e.collectTerms = (e, 0) := by
  have hcount : e.collectTerms.2 = (Rewrite.rewriteUp Rewrite.collectRule false e.tree.term).2 :=
    (Pass.collectTerms.rewrite_term e).2
  rw [Rewrite.rewriteUp_collected he] at hcount
  exact Pass.rewrite_unchanged (p := .collectTerms) hcount

/-- **Collecting a second time changes nothing.** -/
theorem collectTerms_twice [Coefficients α] (e : Expr α) : e.collectTerms.1.collectTerms = (e.collectTerms.1, 0) :=
  collectTerms_of_collected (collected_collectTerms e)

/-- Collecting `x * 3 - 0 * oo + y / x - x` twice, over doubles and over rational numbers. -/
theorem collectTerms_twice_quotient :
    let sum (α : Type) [Scalar α] (three : α) : Term α :=
      .binary () .sub (.binary () .add (.binary () .sub (.binary () .mul (.var () "x") (.literal () three))
        (.binary () .mul (.literal () Scalar.zero) (.infinity ()))) (.binary () .div (.var () "y") (.var () "x")))
        (.var () "x")
    let e : Expr Double := ofTree (sum Double (Scalar.ofDecimal 3 0))
    let f : Expr Rational := ofTree (sum Rational (Scalar.ofDecimal 3 0))
    e.collectTerms.1.collectTerms = (e.collectTerms.1, 0) ∧ f.collectTerms.1.collectTerms = (f.collectTerms.1, 0) := by
  intro sum e f
  exact ⟨collectTerms_twice e, collectTerms_twice f⟩

end Expr

end SignalFlow
