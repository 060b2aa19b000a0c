import Mathlib.Data.Prod.Lex
import SignalFlow.Proofs.Double.Coefficients
import SignalFlow.Proofs.Rewrite.Flat

/-!
# Simplification settles

If terms are collected, every round after the first starts from a collected tree, and each pass leaves it as it is or
lowers, in this order, its sums, its cost and its skew; the later passes of the round do not raise them again. If terms
are not collected, the same holds of size and skew. So after finitely many rounds nothing is left to do
(`exists_fixed_rounds`): from some limit of rounds on, simplification answers that it converged, always with the same
expression (`Expr.simplify_settles`).
-/

namespace SignalFlow

open SignalFlow.Tree
open Scalar (Coefficients)

variable {α : Type}

namespace Rewrite

/-! ## Size -/

/-- **A rule makes roots smaller.** -/
def Rule.Shrinks (r : Rule α) : Prop := ∀ b t u, r b t = some u → u.size < t.size

section Size

variable {r : Rule α}

/-- **Each change of a pass by such a rule makes the tree smaller.** -/
theorem size_rewriteUp (hr : r.Shrinks) (b : Bool) (t : Term α) :
    (rewriteUp r b t).1.size + (rewriteUp r b t).2 ≤ t.size := by
  have hsize := graded_rewriteUp (graded_size 1) hr b t
  rwa [Nat.one_mul] at hsize

end Size

section Rules

variable [Scalar α]

theorem shrinks_fold : (foldRule : Rule α).Shrinks := by
  intro b t u h
  obtain ⟨v, hv, rfl⟩ := foldRule_eq_some h
  rcases literal_operands hv with ⟨x, rfl⟩ | ⟨op, x, y, rfl⟩
  · exact Nat.lt_succ_self _
  · exact Nat.lt_of_sub_pos Nat.two_pos

theorem shrinks_reduce : (reduceRule : Rule α).Shrinks := by
  intro b t u h
  rcases reduceRule_eq_some h with rfl | ⟨op, x, y, rfl, hu⟩
  · simp only [size]
    omega
  · have hx := size_pos x
    have hy := size_pos y
    cases hu <;> simp only [size] at hx hy ⊢ <;> omega

end Rules

/-! ## Measures -/

/-- **A tree is lower than another**: it is cheaper, or it is as it was and less skew. -/
def Lower (u t : Term α) : Prop :=
  Cheaper .apart u t ∨ sums u = sums t ∧ cost .apart u = cost .apart t ∧ skew u < skew t

/-- Sums, then cost, then skew. -/
def height (t : Term α) : ℕ ×ₗ ℕ ×ₗ ℕ := toLex (sums t, toLex (cost .apart t, skew t))

/-- Size, then skew. -/
def bulk (t : Term α) : ℕ ×ₗ ℕ := toLex (size t, skew t)

variable {u t w : Term α}

theorem height_lt (h : Lower u t) : height u < height t := by
  simp only [height, Prod.Lex.toLex_lt_toLex]
  rcases h with (h | ⟨hsums, hcost⟩) | ⟨hsums, hcost, hskew⟩
  · exact .inl h
  · exact .inr ⟨hsums, .inl hcost⟩
  · exact .inr ⟨hsums, .inr ⟨hcost, hskew⟩⟩

/-- A leaner tree is no costlier. -/
theorem Leaner.noCostlier {n : Nat} (h : Leaner n u t) : NoCostlier u t :=
  .inr ⟨h.sums, fun p => (h.cost p).le, fun ht => by rw [h.literal]; exact ht⟩

theorem Leaner.lower {n : Nat} (h : Leaner n u t) : n = 0 ∨ Lower u t := by
  have hskew := h.skew
  rcases Nat.eq_zero_or_pos n with hn | hn
  · exact .inl hn
  · exact .inr (.inr ⟨h.sums, h.cost .apart, by omega⟩)

theorem Lower.trans_noCostlier (hu : NoCostlier u t) (hskew : NoSkewer false u t) (ht : Lower t w) : Lower u w := by
  rcases ht with ht | ⟨hsums, hcost, hlt⟩
  · exact .inl (hu.trans_cheaper ht)
  · rcases hu with hu | ⟨hsums', hcost', -⟩
    · exact .inl (.inl (hu.trans_eq hsums))
    · rcases hskew with hskew | ⟨-, hskew, -⟩
      · exact .inl (.inl (hskew.trans_eq hsums))
      · rcases ((hcost' .apart).trans_eq hcost).lt_or_eq with h | h
        · exact .inl (.inr ⟨hsums'.trans hsums, h⟩)
        · exact .inr ⟨hsums'.trans hsums, h, hskew.trans_lt hlt⟩

end Rewrite

namespace Expr

open Rewrite

variable [Scalar α] {e : Expr α} {config : SimplifyConfig}

/-! ## One round -/

/-- **One more pass of a round**: if the passes before left the expression as it was or brought its tree lower, so it is
after the pass. -/
theorem runIf_lower {A B : Term α → Term α → Prop} (p : Pass) {b : Bool} {r : Expr α × Nat}
    (hr : r = (e, 0) ∨ A r.1.tree.term e.tree.term)
    (hskip : ∀ u, A u e.tree.term → B u e.tree.term)
    (hfirst : b = true → (p.onTerm e.tree.term).2 = 0 ∨ B (p.onTerm e.tree.term).1 e.tree.term)
    (hlater : b = true → ∀ u, A u e.tree.term → B (p.onTerm u).1 e.tree.term) :
    runIf b p.rewrite r = (e, 0) ∨ B (runIf b p.rewrite r).1.tree.term e.tree.term := by
  cases b with
  | false => exact hr.imp_right (hskip _)
  | true =>
    obtain ⟨htree, hcount⟩ := p.rewrite_term r.1
    change ((p.rewrite r.1).1, r.2 + (p.rewrite r.1).2) = (e, 0) ∨ B (p.rewrite r.1).1.tree.term e.tree.term
    rw [htree]
    rcases hr with rfl | hr
    · rcases hfirst rfl with hzero | hlower
      · rw [Pass.rewrite_unchanged (hcount.trans hzero)]
        exact .inl rfl
      · exact .inr hlower
    · exact .inr (hlater rfl _ hr)

/-- **A round that collects terms**, from a collected tree, leaves the expression as it is or brings its tree lower. -/
theorem round_lower [Coefficients α] (hcollect : e.tree.term.Collected false) :
    simplifyRound config e = (e, 0) ∨ Lower (simplifyRound config e).1.tree.term e.tree.term := by
  have hfold := runIf_lower (e := e) (A := Cheaper .apart) (B := Cheaper .apart) .foldConstants
    (b := config.foldConstants) (r := (e, 0)) (.inl rfl) (fun _ => id)
    (fun _ => (lowers_fold.settlesCollected e.tree.term).apart hcollect false)
    fun _ u hu => (noCostlier_rewriteUp lowers_fold.mild false u).trans_cheaper hu
  have hreduce := runIf_lower (B := Cheaper .apart) .eliminateIdentities (b := config.eliminateIdentities)
    hfold (fun _ => id) (fun _ => (lowers_reduce.settlesCollected e.tree.term).apart hcollect false)
    fun _ u hu => (noCostlier_rewriteUp lowers_reduce.mild false u).trans_cheaper hu
  have hchains := runIf_lower (B := Lower) .normalizeChains (b := config.normalizeChains)
    hreduce (fun _ => .inl) (fun _ => (leaner_sweepUntil maxSweeps e.tree.term).lower)
    fun _ u hu => .inl ((leaner_sweepUntil maxSweeps u).noCostlier.trans_cheaper hu)
  exact runIf_lower .collectTerms hchains (fun _ => id)
    (fun _ => .inl (congrArg Prod.snd (rewriteUp_collected hcollect)))
    fun _ u hu => hu.trans_noCostlier (noCostlier_rewriteUp isMild_collect false u) (noSkewer_collect false u)

/-- **A round that does not collect terms** leaves the expression as it is or makes its tree smaller, or leaner at the
same size. -/
theorem round_smaller (hcollect : config.collectTerms = false) :
    simplifyRound config e = (e, 0) ∨ bulk (simplifyRound config e).1.tree.term < bulk e.tree.term := by
  have hrule : ∀ {r : Rule α}, r.Shrinks → ∀ t : Term α,
      (rewriteUp r false t).2 = 0 ∨ (rewriteUp r false t).1.size < t.size := fun hr t => by
    have hsize := size_rewriteUp hr false t
    omega
  have hle : ∀ {r : Rule α}, r.Shrinks → ∀ t : Term α, (rewriteUp r false t).1.size ≤ t.size := fun hr t =>
    (Nat.le_add_right _ _).trans (size_rewriteUp hr false t)
  have hfold := runIf_lower (e := e) (A := fun u t => u.size < t.size) (B := fun u t => u.size < t.size)
    .foldConstants (b := config.foldConstants) (r := (e, 0)) (.inl rfl) (fun _ => id)
    (fun _ => hrule shrinks_fold e.tree.term) fun _ u hu => (hle shrinks_fold u).trans_lt hu
  have hreduce := runIf_lower (A := fun u t => u.size < t.size) (B := fun u t => u.size < t.size)
    .eliminateIdentities (b := config.eliminateIdentities) hfold (fun _ => id)
    (fun _ => hrule shrinks_reduce e.tree.term)
    fun _ u hu => (hle shrinks_reduce u).trans_lt hu
  have hlt : ∀ {u t : Term α}, u.size < t.size → bulk u < bulk t := fun h => Prod.Lex.toLex_lt_toLex.mpr (.inl h)
  have hleaner : ∀ {n : Nat} {u t : Term α}, Leaner n u t → n = 0 ∨ bulk u < bulk t := fun {n _ _} h => by
    have hskew := h.skew
    rcases Nat.eq_zero_or_pos n with hn | hn
    · exact .inl hn
    · exact .inr (Prod.Lex.toLex_lt_toLex.mpr (.inr ⟨h.size, by omega⟩))
  have hchains := runIf_lower (A := fun u t => u.size < t.size) (B := fun u t => bulk u < bulk t)
    .normalizeChains (b := config.normalizeChains) hreduce (fun _ => hlt)
    (fun _ => hleaner (leaner_sweepUntil maxSweeps _))
    fun _ u hu => hlt ((leaner_sweepUntil maxSweeps u).size.trans_lt hu)
  have hdisabled : ∀ {p : Prop}, config.collectTerms = true → p := fun h => by
    rw [hcollect] at h
    cases h
  exact runIf_lower (A := fun u t => bulk u < bulk t) (B := fun u t => bulk u < bulk t) .collectTerms hchains
    (fun _ => id) hdisabled fun h => hdisabled h

/-! ## All rounds -/

/-- **If every round leaves the expression as it is or lowers a measure, nothing is left to do after some rounds.** -/
theorem exists_fixed {μ : Type} [LT μ] [WellFoundedLT μ] {I : Expr α → Prop} (measure : Term α → μ)
    (hround : ∀ e : Expr α, I e → simplifyRound config e = (e, 0) ∨ I (simplifyRound config e).1 ∧
      measure (simplifyRound config e).1.tree.term < measure e.tree.term) (he : I e) :
    ∃ n, ((fun e => (simplifyRound config e).1)^[n] e).Fixed config := by
  induction h : measure e.tree.term using WellFoundedLT.induction generalizing e with
  | ind m ih =>
    rcases hround e he with hfixed | ⟨hnext, hlt⟩
    · exact ⟨0, round_eq_zero_iff.mp (by rw [Function.iterate_zero, id, hfixed])⟩
    · obtain ⟨n, hn⟩ := ih _ (h ▸ hlt) hnext rfl
      exact ⟨n + 1, hn⟩

/-- A round that collects terms ends with a collected tree. -/
theorem collected_round [Coefficients α] (hcollect : config.collectTerms = true) (e : Expr α) :
    (simplifyRound config e).1.tree.term.Collected false := by
  rw [simplifyRound, hcollect]
  change (Pass.collectTerms.rewrite _).1.tree.term.Collected false
  rw [(Pass.rewrite_term _ _).1]
  exact collected_rewriteUp false _

/-- **After finitely many rounds nothing is left to do.** -/
theorem exists_fixed_rounds [Coefficients α] (config : SimplifyConfig) (e : Expr α) :
    ∃ n, ((fun e => (simplifyRound config e).1)^[n] e).Fixed config := by
  cases hcollect : config.collectTerms with
  | false =>
    exact exists_fixed (I := fun _ => True) bulk
      (fun e _ => (round_smaller hcollect).imp_right fun hlt => ⟨trivial, hlt⟩) trivial
  | true =>
    have hcollected := collected_round (α := α) hcollect
    obtain ⟨n, hn⟩ := exists_fixed (I := fun e => e.tree.term.Collected false) height
      (fun e he => (round_lower he).imp_right fun hlower => ⟨hcollected e, height_lt hlower⟩) (hcollected e)
    exact ⟨n + 1, hn⟩

/-- The limit of rounds of a selection of passes. -/
theorem simplify_limit (config : SimplifyConfig) (m : Nat) (e : Expr α) :
    e.simplify { config with maxPasses := m } = simplifyRounds config m e ⟨0, 0, false⟩ :=
  simplifyRounds_limit config m m e _

/-- **Where nothing is left to do each enabled pass counts nothing and changes nothing.** -/
theorem fixed_iff : e.Fixed config ↔
    (config.foldConstants = true → e.foldConstants = (e, 0)) ∧
      (config.eliminateIdentities = true → e.eliminateIdentities = (e, 0)) ∧
      (config.normalizeChains = true → e.normalizeChains = (e, 0)) ∧
      (config.collectTerms = true → e.collectTerms = (e, 0)) := by
  have hif : ∀ (b : Bool) (p : Pass), (∀ q ∈ if b then [p] else [], q.rewrite e = (e, 0)) ↔
      (b = true → p.rewrite e = (e, 0)) := fun b p => by
    cases b <;> simp
  rw [Fixed, SimplifyConfig.passes, List.forall_mem_append, List.forall_mem_append, List.forall_mem_append, hif, hif,
    hif, hif, and_assoc, and_assoc]
  rfl

/-- **From some limit of rounds on the answer is the same**: simplification has converged. -/
theorem simplify_eventually [Coefficients α] (e : Expr α) (config : SimplifyConfig) :
    ∃ N result, ∀ m ≥ N, result.2.converged = true ∧ e.simplify { config with maxPasses := m } = result := by
  obtain ⟨n, hn⟩ := exists_fixed_rounds config e
  obtain ⟨N, result, hresult⟩ := exists_simplifyRounds_eq hn ⟨0, 0, false⟩
  exact ⟨N, result, fun m hm => by rw [simplify_limit]; exact hresult m hm⟩

/-- **If simplification has converged, nothing is left to do**, and it finds this out in one round. -/
theorem fixed_simplify (h : (e.simplify config).2.converged = true) : (e.simplify config).1.Fixed config ∧
    ∀ m ≥ 1, (e.simplify config).1.simplify { config with maxPasses := m } = ((e.simplify config).1, ⟨1, 0, true⟩) := by
  have hfixed : (e.simplify config).1.Fixed config := fixed_of_converged rfl h
  exact ⟨hfixed, fun m hm => by rw [simplify_limit, hfixed.rounds hm]⟩

/-- **Simplification settles, and what has settled stays.** Whichever passes are enabled, from some limit of rounds on
simplification answers that it converged, always with the same expression and report. And if it has converged, no
enabled pass changes the result or counts a change, so simplifying again takes one round without a rewrite. -/
theorem simplify_settles (e : Expr Double) (config : SimplifyConfig) :
    (∃ N result, ∀ m ≥ N, result.2.converged = true ∧ e.simplify { config with maxPasses := m } = result) ∧
      ∀ u report, e.simplify config = (u, report) → report.converged = true →
        (config.foldConstants = true → u.foldConstants = (u, 0)) ∧
        (config.eliminateIdentities = true → u.eliminateIdentities = (u, 0)) ∧
        (config.normalizeChains = true → u.normalizeChains = (u, 0)) ∧
        (config.collectTerms = true → u.collectTerms = (u, 0)) ∧
        ∀ m ≥ 1, u.simplify { config with maxPasses := m } = (u, ⟨1, 0, true⟩) := by
  refine ⟨simplify_eventually e config, fun u report hsimplify hconverged => ?_⟩
  have hsettled := fixed_simplify (show (e.simplify config).2.converged = true by rw [hsimplify]; exact hconverged)
  rw [hsimplify] at hsettled
  obtain ⟨hfold, hreduce, hchains, hcollect⟩ := fixed_iff.mp hsettled.1
  exact ⟨hfold, hreduce, hchains, hcollect, hsettled.2⟩

end Expr

end SignalFlow
