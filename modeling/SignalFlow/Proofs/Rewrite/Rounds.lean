import SignalFlow.Proofs.Rewrite.BareTree
import SignalFlow.Rewrite.Simplify

/-!
# Rounds of passes

A pass that counts no change makes none, not even to handles or free slots (`Pass.rewrite_unchanged`). A round runs the
enabled passes one after the other (`simplifyRound_eq`), so a round that counts no change leaves the expression to each
of them as it is, and so does every later round. What simplification answers once a round counted nothing is therefore
the same for every higher limit of rounds (`exists_simplifyRounds_eq`), and nothing is left to do
(`fixed_of_converged`).
-/

namespace SignalFlow

open SignalFlow.Tree

variable {ι α : Type}

/-! ## Passes that count nothing -/

namespace Rewrite

variable {f : Change α} {r : Rule α}

theorem Change.count_unchanged (f : Change α) (b : Bool) (t : Tree Id α) (s : Slots) (n : Nat) :
    n ≤ (f.count b t s n).2.2 ∧ ((f.count b t s n).2.2 = n → f.count b t s n = (t, s, n)) := by
  rw [Change.count]
  cases f b t s with
  | none => exact ⟨Nat.le_refl n, fun _ => rfl⟩
  | some p => exact ⟨Nat.le_succ n, fun h => absurd h (Nat.succ_ne_self n)⟩

mutual

/-- **A bottom-up pass that counts nothing changes nothing.** -/
theorem bottomUp_unchanged (f : Change α) (b : Bool) (t : Tree Id α) (s : Slots) (n : Nat) :
    n ≤ (bottomUp f b t s n).2.2 ∧ ((bottomUp f b t s n).2.2 = n → bottomUp f b t s n = (t, s, n)) := by
  match t with
  | .literal l v | .var l name | .infinity l => exact f.count_unchanged b _ s n
  | .negate l t =>
    obtain ⟨hle, ht⟩ := bottomUp_unchanged f false t s n
    have hroot := f.count_unchanged b (.negate l (bottomUp f false t s n).1) (bottomUp f false t s n).2.1
      (bottomUp f false t s n).2.2
    refine ⟨hle.trans hroot.1, fun h => ?_⟩
    have hcount : (bottomUp f false t s n).2.2 = n := Nat.le_antisymm (hroot.1.trans h.le) hle
    rw [ht hcount] at hroot
    rw [bottomUp, ht hcount] at h ⊢
    exact hroot.2 h
  | .binary l op x y =>
    obtain ⟨hlex, hx⟩ := bottomUp_unchanged f op.isAdditive x s n
    obtain ⟨hley, hy⟩ := bottomUp_unchanged f op.isAdditive y (bottomUp f op.isAdditive x s n).2.1
      (bottomUp f op.isAdditive x s n).2.2
    have hroot := f.count_unchanged b (.binary l op (bottomUp f op.isAdditive x s n).1
      (bottomUp f op.isAdditive y (bottomUp f op.isAdditive x s n).2.1 (bottomUp f op.isAdditive x s n).2.2).1)
      (bottomUp f op.isAdditive y (bottomUp f op.isAdditive x s n).2.1 (bottomUp f op.isAdditive x s n).2.2).2.1
      (bottomUp f op.isAdditive y (bottomUp f op.isAdditive x s n).2.1 (bottomUp f op.isAdditive x s n).2.2).2.2
    refine ⟨(hlex.trans hley).trans hroot.1, fun h => ?_⟩
    have hcount := Nat.le_antisymm (hroot.1.trans h.le) (hlex.trans hley)
    have hcountx : (bottomUp f op.isAdditive x s n).2.2 = n := Nat.le_antisymm (hley.trans hcount.le) hlex
    rw [hx hcountx] at hroot hy hcount
    rw [hy hcount] at hroot
    rw [bottomUp, hx hcountx] at h ⊢
    dsimp only at h ⊢
    rw [hy hcount] at h ⊢
    exact hroot.2 h
  | .list l items =>
    obtain ⟨hle, ht⟩ := bottomUpAll_unchanged f items s n
    have hroot := f.count_unchanged b (.list l (bottomUpAll f items s n).1) (bottomUpAll f items s n).2.1
      (bottomUpAll f items s n).2.2
    refine ⟨hle.trans hroot.1, fun h => ?_⟩
    have hcount : (bottomUpAll f items s n).2.2 = n := Nat.le_antisymm (hroot.1.trans h.le) hle
    rw [ht hcount] at hroot
    rw [bottomUp, ht hcount] at h ⊢
    exact hroot.2 h

theorem bottomUpAll_unchanged (f : Change α) (ts : List (Tree Id α)) (s : Slots) (n : Nat) :
    n ≤ (bottomUpAll f ts s n).2.2 ∧ ((bottomUpAll f ts s n).2.2 = n → bottomUpAll f ts s n = (ts, s, n)) := by
  match ts with
  | [] => exact ⟨Nat.le_refl n, fun _ => rfl⟩
  | t :: ts =>
    obtain ⟨hlet, ht⟩ := bottomUp_unchanged f false t s n
    obtain ⟨hlets, hts⟩ := bottomUpAll_unchanged f ts (bottomUp f false t s n).2.1 (bottomUp f false t s n).2.2
    refine ⟨hlet.trans hlets, fun h => ?_⟩
    have hcount : (bottomUp f false t s n).2.2 = n := Nat.le_antisymm (hlets.trans h.le) hlet
    rw [ht hcount] at hts
    rw [bottomUpAll, ht hcount] at h ⊢
    dsimp only at h ⊢
    rw [hts h]

end

theorem Rule.count_unchanged {b : Bool} {t : Term α} (h : (r.count b t).2 = 0) : r.count b t = (t, 0) := by
  rw [Rule.count] at h ⊢
  cases hr : r b t with
  | none => rfl
  | some u =>
    rw [hr] at h
    cases h

mutual

/-- **A pass by a rule that counts nothing changes nothing.** -/
theorem rewriteUp_unchanged {b : Bool} {t : Term α} (h : (rewriteUp r b t).2 = 0) : rewriteUp r b t = (t, 0) := by
  match t with
  | .literal _ _ | .var _ _ | .infinity _ => exact Rule.count_unchanged h
  | .negate _ t =>
    rw [rewriteUp] at h ⊢
    have ht : rewriteUp r false t = (t, 0) := rewriteUp_unchanged (Nat.eq_zero_of_add_eq_zero_right h)
    rw [ht] at h ⊢
    dsimp only at h ⊢
    rw [Rule.count_unchanged (Nat.eq_zero_of_add_eq_zero_left h)]
    rfl
  | .binary _ op x y =>
    rw [rewriteUp] at h ⊢
    have hoperands := Nat.eq_zero_of_add_eq_zero_right h
    have hx : rewriteUp r op.isAdditive x = (x, 0) := rewriteUp_unchanged (Nat.eq_zero_of_add_eq_zero_right hoperands)
    have hy : rewriteUp r op.isAdditive y = (y, 0) := rewriteUp_unchanged (Nat.eq_zero_of_add_eq_zero_left hoperands)
    rw [hx, hy] at h ⊢
    dsimp only at h ⊢
    rw [Rule.count_unchanged (Nat.eq_zero_of_add_eq_zero_left h)]
    rfl
  | .list _ items =>
    rw [rewriteUp] at h ⊢
    have hitems : rewriteUpAll r items = (items, 0) := rewriteUpAll_unchanged (Nat.eq_zero_of_add_eq_zero_right h)
    rw [hitems] at h ⊢
    dsimp only at h ⊢
    rw [Rule.count_unchanged (Nat.eq_zero_of_add_eq_zero_left h)]
    rfl

theorem rewriteUpAll_unchanged {ts : List (Term α)} (h : (rewriteUpAll r ts).2 = 0) :
    rewriteUpAll r ts = (ts, 0) := by
  match ts with
  | [] => rfl
  | t :: ts =>
    rw [rewriteUpAll] at h ⊢
    dsimp only at h ⊢
    have ht : rewriteUp r false t = (t, 0) := rewriteUp_unchanged (Nat.eq_zero_of_add_eq_zero_right h)
    have hts : rewriteUpAll r ts = (ts, 0) := rewriteUpAll_unchanged (Nat.eq_zero_of_add_eq_zero_left h)
    rw [ht, hts]
    rfl

end

theorem turnAll_unchanged (outer : BinaryOp) (a b : Tree ι α) (h : (turnAll outer a b).turns = 0) :
    turnAll outer a b = ⟨outer, a, b, 0⟩ := by
  fun_induction turnAll outer a b with
  | case1 | case2 => cases h
  | case3 | case4 => cases h
  | _ => rfl

/-- **Sweeps without turns change nothing.** -/
theorem sweeps_unchanged :
    (∀ t : Tree ι α, (sweep t).2 = 0 → (sweep t).1 = t) ∧
      ∀ ts : List (Tree ι α), (sweepAll ts).2 = 0 → (sweepAll ts).1 = ts := by
  apply sweep.mutual_induct
  case case1 | case2 | case3 =>
    intros
    rw [sweep]
  case case4 =>
    intro l t u n _ ih h
    rw [sweep_negate] at h ⊢
    exact congrArg (Tree.negate l) (ih h)
  case case5 =>
    intro l op a b r _ u m _ w n _ ihl ihr h
    rw [sweep_binary] at h ⊢
    dsimp only [r] at h ihl ihr ⊢
    rw [ihl (by omega), ihr (by omega), turnAll_unchanged op a b (by omega)]
  case case6 =>
    intro l items us n _ ih h
    rw [sweep_list] at h ⊢
    exact congrArg (Tree.list l) (ih h)
  case case7 => exact fun _ => by rw [sweepAll]
  case case8 =>
    intro t ts u m _ us n _ iht ihts h
    rw [sweepAll_cons] at h ⊢
    dsimp only at h ⊢
    rw [iht (by omega), ihts (by omega)]

theorem sweepUntil_unchanged (fuel : Nat) (t : Tree ι α) (n : Nat) :
    n ≤ (sweepUntil fuel t n).2 ∧ ((sweepUntil fuel t n).2 = n → sweepUntil fuel t n = (t, n)) := by
  induction fuel generalizing t n with
  | zero => exact ⟨Nat.le_refl n, fun _ => rfl⟩
  | succ fuel ih =>
    rw [sweepUntil]
    split
    · next u hsweep =>
      have hu := sweeps_unchanged.1 t
      rw [hsweep] at hu
      exact ⟨Nat.le_refl n, fun _ => congrArg (·, n) (hu rfl)⟩
    · next u m hsweep =>
      obtain ⟨hle, -⟩ := ih u (n + (m + 1))
      exact ⟨by omega, fun h => by omega⟩

end Rewrite

open Rewrite

variable [Scalar α]

/-- **A pass that counts nothing leaves the expression as it is.** -/
theorem Pass.rewrite_unchanged {p : Pass} {e : Expr α} (h : (p.rewrite e).2 = 0) : p.rewrite e = (e, 0) := by
  have hbottom := fun f : Change α => (bottomUp_unchanged f false e.tree e.slots 0).2
  cases p with
  | foldConstants =>
    have hfold := hbottom foldChange
    rw [bottomUp_fold] at hfold
    have heq := hfold h
    simp only [Prod.mk.injEq] at heq
    obtain ⟨htree, hslots, hcount⟩ := heq
    rw [Pass.rewrite, Expr.foldConstants]
    simp only [htree, hslots, hcount]
  | eliminateIdentities =>
    have hreduce := hbottom reduceChange
    rw [bottomUp_reduce] at hreduce
    have heq := hreduce h
    simp only [Prod.mk.injEq] at heq
    obtain ⟨htree, hslots, hcount⟩ := heq
    rw [Pass.rewrite, Expr.eliminateIdentities]
    simp only [htree, hslots, hcount]
  | normalizeChains =>
    rw [Pass.rewrite, Expr.normalizeChains, (sweepUntil_unchanged maxSweeps e.tree 0).2 h]
  | collectTerms =>
    have hcollect := hbottom collectChange
    rw [bottomUp_collect] at hcollect
    rw [Pass.rewrite, Expr.collectTerms, hcollect h]
  | eliminateQuotients =>
    have hflatten := hbottom flattenChange
    rw [bottomUp_flatten] at hflatten
    rw [Pass.rewrite, Expr.eliminateQuotients, hflatten h]

/-! ## Rounds -/

/-- **The enabled passes**, in the order in which a round runs them. -/
def SimplifyConfig.passes (config : SimplifyConfig) : List Pass :=
  (if config.foldConstants then [.foldConstants] else []) ++
    (if config.eliminateIdentities then [.eliminateIdentities] else []) ++
    (if config.normalizeChains then [.normalizeChains] else []) ++
    (if config.collectTerms then [.collectTerms] else [])

/-- One more pass; its changes are added to those that are counted. -/
def Pass.andThen (r : Expr α × Nat) (p : Pass) : Expr α × Nat :=
  ((p.rewrite r.1).1, r.2 + (p.rewrite r.1).2)

namespace Expr

variable {e : Expr α} {config : SimplifyConfig}

/-- **A round runs the enabled passes** one after the other. -/
theorem simplifyRound_eq (config : SimplifyConfig) (e : Expr α) :
    simplifyRound config e = config.passes.foldl Pass.andThen (e, 0) := by
  obtain ⟨_, a, b, c, d⟩ := config
  cases a <;> cases b <;> cases c <;> cases d <;> rfl

/-- **What a round makes of the bare tree.** -/
theorem simplifyRound_term (config : SimplifyConfig) (e : Expr α) :
    (simplifyRound config e).1.tree.term = config.passes.foldl (fun t p => (p.onTerm t).1) e.tree.term := by
  rw [simplifyRound_eq]
  suffices hfrom : ∀ (ps : List Pass) (r : Expr α × Nat),
      (ps.foldl Pass.andThen r).1.tree.term = ps.foldl (fun t p => (p.onTerm t).1) r.1.tree.term from hfrom _ (e, 0)
  intro ps
  induction ps with
  | nil => exact fun _ => rfl
  | cons p ps ih =>
    intro r
    rw [List.foldl_cons, List.foldl_cons, ih, Pass.andThen, (p.rewrite_term r.1).1]

section Invariants

variable {P : Term α → Prop} (hpasses : ∀ p ∈ config.passes, ∀ t, P t → P (p.onTerm t).1)

include hpasses

/-- **What every enabled pass keeps, a round keeps.** -/
theorem invariant_simplifyRound (he : P e.tree.term) : P (simplifyRound config e).1.tree.term := by
  rw [simplifyRound_term]
  exact List.foldlRecOn config.passes _ he fun t ht p hp => hpasses p hp t ht

/-- **What every enabled pass keeps, rounds keep**, however many there are. -/
theorem invariant_simplifyRounds (fuel : Nat) (report : SimplifyReport) (he : P e.tree.term) :
    P (simplifyRounds config fuel e report).1.tree.term := by
  induction fuel generalizing e report with
  | zero => exact he
  | succ fuel ih =>
    have hround := invariant_simplifyRound hpasses he
    rw [simplifyRounds]
    split
    · next h => rwa [h] at hround
    · next h =>
      rw [h] at hround
      exact ih _ hround

end Invariants

theorem passes_unchanged {ps : List Pass} {n : Nat} :
    n ≤ (ps.foldl Pass.andThen (e, n)).2 ∧
      ((ps.foldl Pass.andThen (e, n)).2 = n → ∀ p ∈ ps, p.rewrite e = (e, 0)) := by
  induction ps generalizing e n with
  | nil => exact ⟨Nat.le_refl n, fun _ => nofun⟩
  | cons p ps ih =>
    obtain ⟨hle, hps⟩ := ih (e := (p.rewrite e).1) (n := n + (p.rewrite e).2)
    simp only [List.foldl_cons, Pass.andThen]
    refine ⟨(Nat.le_add_right _ _).trans hle, fun h => ?_⟩
    have hp : p.rewrite e = (e, 0) := Pass.rewrite_unchanged (by omega)
    rw [hp] at hps h
    exact List.forall_mem_cons.mpr ⟨hp, hps h⟩

theorem foldl_unchanged {ps : List Pass} (h : ∀ p ∈ ps, p.rewrite e = (e, 0)) (n : Nat) :
    ps.foldl Pass.andThen (e, n) = (e, n) := by
  induction ps with
  | nil => rfl
  | cons p ps ih =>
    rw [List.foldl_cons, Pass.andThen, h p List.mem_cons_self]
    exact ih fun q hq => h q (List.mem_cons_of_mem _ hq)

/-- Nothing is left to do for a selection of passes. -/
def Fixed (config : SimplifyConfig) (e : Expr α) : Prop := ∀ p ∈ config.passes, p.rewrite e = (e, 0)

/-- **A round counts nothing exactly when no pass changes the expression.** -/
theorem round_eq_zero_iff : (simplifyRound config e).2 = 0 ↔ e.Fixed config := by
  rw [simplifyRound_eq]
  exact ⟨passes_unchanged.2, fun h => by rw [foldl_unchanged h]⟩

theorem Fixed.round (h : e.Fixed config) : simplifyRound config e = (e, 0) := by
  rw [simplifyRound_eq, foldl_unchanged h]

/-- Where nothing is left to do, one round finds this out. -/
theorem Fixed.rounds (h : e.Fixed config) {fuel : Nat} (hfuel : 1 ≤ fuel) (report : SimplifyReport) :
    simplifyRounds config fuel e report = (e, { report with passes := report.passes + 1, converged := true }) := by
  obtain ⟨fuel, rfl⟩ := Nat.exists_eq_add_of_le' hfuel
  rw [simplifyRounds, h.round]

/-- The passes do not depend on the limit of rounds. -/
theorem simplifyRound_limit (config : SimplifyConfig) (m : Nat) (e : Expr α) :
    simplifyRound { config with maxPasses := m } e = simplifyRound config e := rfl

theorem simplifyRounds_limit (config : SimplifyConfig) (m fuel : Nat) (e : Expr α) (report : SimplifyReport) :
    simplifyRounds { config with maxPasses := m } fuel e report = simplifyRounds config fuel e report := by
  induction fuel generalizing e report with
  | zero => rfl
  | succ fuel ih => simp only [simplifyRounds, simplifyRound_limit, ih]

/-- **If rounds converge, nothing is left to do.** -/
theorem fixed_of_converged {fuel : Nat} {report : SimplifyReport} (hreport : report.converged = false)
    (h : (simplifyRounds config fuel e report).2.converged = true) :
    (simplifyRounds config fuel e report).1.Fixed config := by
  induction fuel generalizing e report with
  | zero =>
    rw [simplifyRounds, hreport] at h
    cases h
  | succ fuel ih =>
    rw [simplifyRounds] at h ⊢
    split at h
    · next u hround =>
      have hfixed : e.Fixed config := round_eq_zero_iff.mp (by rw [hround])
      rw [hfixed.round] at hround
      obtain rfl : e = u := congrArg Prod.fst hround
      exact hfixed
    · refine ih ?_ h
      exact hreport

/-- **Where rounds come to an expression to which nothing is left to do**, every limit that is high enough answers it,
with the same report. -/
theorem exists_simplifyRounds_eq {n : Nat} (h : (((fun e => (simplifyRound config e).1)^[n]) e).Fixed config)
    (report : SimplifyReport) :
    ∃ N result, ∀ m ≥ N, result.2.converged = true ∧ simplifyRounds config m e report = result := by
  induction n generalizing e report with
  | zero => exact ⟨1, _, fun m hm => ⟨rfl, h.rounds hm report⟩⟩
  | succ n ih =>
    cases hcount : (simplifyRound config e).2 with
    | zero => exact ⟨1, _, fun m hm => ⟨rfl, (round_eq_zero_iff.mp hcount).rounds hm report⟩⟩
    | succ k =>
      obtain ⟨N, result, hresult⟩ := ih h
        { report with passes := report.passes + 1, rewrites := report.rewrites + (k + 1) }
      refine ⟨N + 1, result, fun m hm => ?_⟩
      obtain ⟨m, rfl⟩ := Nat.exists_eq_add_of_le' ((Nat.le_add_left 1 N).trans hm)
      obtain ⟨hconverged, heq⟩ := hresult m (Nat.le_of_succ_le_succ hm)
      refine ⟨hconverged, ?_⟩
      rw [simplifyRounds, ← Prod.mk.eta (p := simplifyRound config e), hcount]
      exact heq

end Expr

end SignalFlow
