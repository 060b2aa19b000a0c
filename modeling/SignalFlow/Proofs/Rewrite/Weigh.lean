import SignalFlow.Proofs.Rewrite.Skew
import SignalFlow.Proofs.Rewrite.Written

/-!
# Collecting makes no tree costlier

The terms of a sum are weighed: each by a constant and by what its factors weigh (`weigh`). Reading a sum as terms,
merging and dropping terms, and writing them again do not make them heavier, whether the sums, the cost or the skew of
the factors are counted. So a sum with its terms collected is no costlier than before (`isMild_collect`), and where it
has as many sums as before it is a sum that is no more skew (`noSkewer_collect`).
-/

namespace SignalFlow.Rewrite

open SignalFlow.Tree
open Scalar (one)

variable {α : Type}

/-! ## Weights of terms -/

/-- **What terms weigh**: each of them a constant, and what its factors weigh. -/
def weigh (k : Nat) (w : Term α → Nat) (ts : List (Summand α)) : Nat := (ts.map fun s => k + (s.factors.map w).sum).sum

variable {k : Nat} {w : Term α → Nat}

@[simp] theorem weigh_nil : weigh k w [] = 0 := rfl

@[simp] theorem weigh_cons (s : Summand α) (ts : List (Summand α)) :
    weigh k w (s :: ts) = k + (s.factors.map w).sum + weigh k w ts := rfl

@[simp] theorem weigh_append (ts us : List (Summand α)) : weigh k w (ts ++ us) = weigh k w ts + weigh k w us := by
  rw [weigh, List.map_append, List.sum_append]
  rfl

theorem weigh_succ (ts : List (Summand α)) : weigh (k + 1) w ts = ts.length + weigh k w ts := by
  induction ts with
  | nil => rfl
  | cons s ts ih =>
    rw [weigh_cons, weigh_cons, List.length_cons, ih]
    omega

/-- Terms with some of the factors of other terms weigh no more. -/
theorem weigh_le_of_sublist {ts us : List (Summand α)} (g : List (Term α) → List (Term α)) (hg : ∀ fs, (g fs).Perm fs)
    (h : (ts.map Summand.factors).Sublist (us.map fun t => g t.factors)) : weigh k w ts ≤ weigh k w us := by
  have hweigh : weigh k w us = ((us.map fun t => g t.factors).map fun fs => k + (fs.map w).sum).sum := by
    rw [weigh, List.map_map]
    exact congrArg List.sum (List.map_congr_left fun t _ => by
      rw [Function.comp_apply, ((hg t.factors).map w).sum_eq])
  have hsub := (h.map fun fs => k + (fs.map w).sum).sum_le_sum fun _ _ => Nat.zero_le _
  rw [List.map_map, ← hweigh] at hsub
  exact hsub

/-! ## Atoms and sums -/

/-- As a factor an atom costs what it costs by itself. -/
theorem cost_factor_of_atom {t : Term α} (ht : t.isAtom = true) : cost .factor t = cost .apart t := by
  cases t with
  | literal | negate => cases ht
  | binary l op a b =>
    cases op with
    | mul | div => cases ht
    | _ => rfl
  | _ => rfl

/-- As a divisor an atom costs a power more, unless it is one already. -/
theorem cost_divisor_of_atom {t : Term α} (ht : t.isAtom = true)
    (hpow : ∀ l a m v, t = .binary l .pow a (.literal m v) → False) : cost .divisor t = cost .apart t + 1 := by
  cases t with
  | literal | negate => cases ht
  | binary l op a b =>
    cases op with
    | mul | div => cases ht
    | pow =>
      have hb : b.literal?.isSome = false := by
        cases b with
        | literal m v => exact (hpow l a m v rfl).elim
        | _ => rfl
      simp only [cost, hb, Role.toll, Bool.false_eq_true, if_false]
      omega
    | _ =>
      simp only [cost, Role.toll]
      omega
  | _ =>
    simp only [cost, Role.toll]
    try omega

/-- A tree that is no part of a product. -/
theorem chain_mul_of_atom {t : Term α} (ht : t.isAtom = true) : chain .mul t = 0 := by
  cases t with
  | binary l op a b => cases op <;> first | rfl | cases ht
  | _ => rfl

/-- A sum is no part of another chain. -/
theorem chain_of_additive {t : Term α} (ht : t.isAdditive = true) {op : BinaryOp} (hop : op.isAdditive = false) :
    chain op t = 0 := by
  cases t with
  | binary l o a b =>
    cases o with
    | add | sub => cases op <;> first | rfl | cases hop
    | _ => cases ht
  | _ => cases ht

/-- A tree that is no part of a sum. -/
theorem chain_add_of_not_additive {t : Term α} (ht : t.isAdditive = false) : chain .add t = 0 := by
  cases t with
  | binary l op a b => cases op <;> first | rfl | cases ht
  | _ => rfl

/-- In a term of a sum a sum costs what it costs by itself. -/
theorem cost_of_additive {t : Term α} (ht : t.isAdditive = true) (p : Role) :
    cost p t = cost .factor t + p.toll ∧ 0 < sums t := by
  cases t with
  | binary l op a b =>
    cases op with
    | add | sub =>
      simp only [cost, sums, BinaryOp.isAdditive, Role.toll, if_true]
      omega
    | _ => cases ht
  | _ => cases ht

variable [Scalar α]

/-- **Collected terms weigh no more.** -/
theorem weigh_collected (ts : List (Summand α)) :
    weigh k w (constantFirst ((mergeTerms ts).filter Summand.stays)) ≤ weigh k w ts := by
  have hmerged : weigh k w (mergeTerms ts) ≤ weigh k w ts :=
    weigh_le_of_sublist sortFactors sortFactors_perm (distinct_mergeTerms ts).2
  have hstay : weigh k w ((mergeTerms ts).filter Summand.stays) ≤ weigh k w (mergeTerms ts) :=
    weigh_le_of_sublist id (fun _ => .refl _) (List.filter_sublist.map _)
  have hperm := (constantFirst_perm ((mergeTerms ts).filter Summand.stays)).map fun s => k + (s.factors.map w).sum
  exact (hperm.sum_eq).le.trans (hstay.trans hmerged)

/-! ## Reading -/

/-- The role of a factor of a product. -/
def Role.ofInverted (inverted : Bool) : Role := if inverted then .divisor else .factor

theorem sums_reciprocal (t : Term α) : sums (reciprocal t) = sums t := by
  unfold reciprocal
  split <;> simp [sums, BinaryOp.isAdditive]

theorem skew_reciprocal (t : Term α) : skew (reciprocal t) = skew t := by
  unfold reciprocal
  split <;> simp [skew, chain]

theorem cost_reciprocal {t : Term α} (ht : t.isAtom = true) : cost .apart (reciprocal t) = cost .divisor t := by
  unfold reciprocal
  split
  · rfl
  · next hpow =>
    rw [cost_divisor_of_atom ht hpow]
    exact congrArg (· + 1) (Nat.zero_add _)

/-- **The factors of a product have its sums**, are no costlier and no more skew. -/
theorem weigh_readFactors (t : Term α) (inverted : Bool) (c : α) :
    ((readFactors t inverted c).2.map (sums ∘ factor)).sum = sums t ∧
      ((readFactors t inverted c).2.map (cost .apart ∘ factor)).sum ≤ cost (Role.ofInverted inverted) t ∧
      ((readFactors t inverted c).2.map (skew ∘ factor)).sum ≤ skew t := by
  fun_induction readFactors t inverted c with
  | case1 | case2 => exact ⟨rfl, Nat.zero_le _, Nat.zero_le _⟩
  | case3 l v inverted c hinverted hzero =>
    have htrue : inverted = true := by simpa using hinverted
    rw [htrue]
    exact ⟨rfl, Nat.le_refl _, Nat.le_refl _⟩
  | case4 _ a b inverted c left right iha ihb =>
    simp only [List.map_append, List.sum_append, sums, cost, skew]
    dsimp only [left, right] at ihb iha ⊢
    refine ⟨?_, ?_, ?_⟩
    · rw [iha.1, ihb.1]
      simp [BinaryOp.isAdditive]
    · omega
    · omega
  | case5 _ a b inverted c left right iha ihb =>
    have hflip : Role.ofInverted (!inverted) = (Role.ofInverted inverted).flip := by cases inverted <;> rfl
    simp only [List.map_append, List.sum_append, sums, cost, skew]
    dsimp only [left, right] at ihb iha ⊢
    rw [hflip] at ihb
    refine ⟨?_, ?_, ?_⟩
    · rw [iha.1, ihb.1]
      simp [BinaryOp.isAdditive]
    · omega
    · omega
  | case6 _ t inverted c ih =>
    exact ⟨ih.1, ih.2.1.trans (Nat.le_add_left _ _), ih.2.2⟩
  | case7 t inverted c hliteral hmul hdiv hnegate =>
    have hatom := isAtom_of_not hliteral hmul hdiv hnegate
    simp only [List.map_cons, List.map_nil, List.sum_singleton, Function.comp_apply, factor]
    cases inverted with
    | false => exact ⟨rfl, (cost_factor_of_atom hatom).ge, Nat.le_refl _⟩
    | true => exact ⟨sums_reciprocal t, (cost_reciprocal hatom).le, (skew_reciprocal t).le⟩

theorem weigh_readProduct (t : Term α) (sign : α) : weigh 1 sums [readProduct t sign] = sums t + 1 ∧
    weigh 1 (cost .apart) [readProduct t sign] ≤ cost .factor t + 1 ∧ weigh 0 skew [readProduct t sign] ≤ skew t := by
  have hfactors : (readProduct t sign).factors = (readFactors t false sign).2.map factor := rfl
  obtain ⟨hsums, hcost, hskew⟩ := weigh_readFactors t false sign
  simp only [weigh_cons, weigh_nil, hfactors, List.map_map]
  simp only [Role.ofInverted, Bool.false_eq_true, if_false] at hcost
  omega

/-- **The terms of a sum have its sums**, with one that is not written; they are no costlier and no more skew. -/
theorem weigh_readTerms (t : Term α) (sign : α) : weigh 1 sums (readTerms t sign) = sums t + 1 ∧
    weigh 1 (cost .apart) (readTerms t sign) ≤ cost .factor t + 1 ∧ weigh 0 skew (readTerms t sign) ≤ skew t := by
  fun_induction readTerms t sign with
  | case1 sign _ a b iha ihb | case2 sign _ a b iha ihb =>
    simp only [weigh_append, sums, cost, skew, BinaryOp.isAdditive, Role.toll, if_true]
    omega
  | case3 sign t hadd hsub c s hs h ih =>
    obtain ⟨hread, -, -⟩ := scaledSum?_eq_some h
    have hweigh := weigh_readFactors t false sign
    rw [hread] at hweigh
    simp only [List.map_cons, List.map_nil, List.sum_singleton, Function.comp_apply, factor, Role.ofInverted,
      Bool.false_eq_true, if_false] at hweigh
    have hfactor := (cost_le_apart s).1
    omega
  | case4 sign t hadd hsub h => exact weigh_readProduct t sign

/-- A sum is read as two terms or more. -/
theorem length_readTerms (t : Term α) (sign : α) :
    (if t.isAdditive then 2 else 1) ≤ (readTerms t sign).length := by
  have hpos : ∀ u : Term α, 1 ≤ (if u.isAdditive then 2 else 1) := fun u => by split <;> omega
  fun_induction readTerms t sign with
  | case1 sign _ a b iha ihb | case2 sign _ a b iha ihb =>
    have ha := (hpos a).trans iha
    have hb := (hpos b).trans ihb
    rw [List.length_append]
    exact Nat.add_le_add ha hb
  | case3 sign t hadd hsub c s hs h ih =>
    rw [isAdditive_eq_false hadd hsub]
    exact (hpos s).trans ih
  | case4 sign t hadd hsub h =>
    rw [isAdditive_eq_false hadd hsub]
    exact Nat.le_refl 1

/-! ## Writing -/

omit [Scalar α] in
theorem weigh_times {g : Term α} {rest : List (Term α)} (hrest : ∀ f ∈ rest, f.isAtom = true) :
    sums (times g rest) = sums g + (rest.map sums).sum ∧
      cost .factor (times g rest) = cost .factor g + (rest.map (cost .apart)).sum ∧
      skew (times g rest) = skew g + (rest.map skew).sum := by
  induction rest generalizing g with
  | nil => exact ⟨rfl, rfl, rfl⟩
  | cons f rest ih =>
    obtain ⟨hf, hrest⟩ := List.forall_mem_cons.mp hrest
    obtain ⟨hsums, hcost, hskew⟩ := ih (g := .binary () .mul g f) hrest
    have hchain := chain_mul_of_atom hf
    have hfactor := cost_factor_of_atom hf
    change sums (times (.binary () .mul g f) rest) = _ ∧ cost .factor (times (.binary () .mul g f) rest) = _ ∧
      skew (times (.binary () .mul g f) rest) = _
    rw [hsums, hcost, hskew]
    simp only [sums, cost, skew, BinaryOp.isAdditive, Role.step, List.map_cons, List.sum_cons, Bool.false_eq_true,
      if_false]
    omega

/-- **A written term** has the sums and the cost of its factors. -/
theorem weigh_writeTerm (c : α) {fs : List (Term α)} (hfs : ∀ f ∈ fs, f.isAtom = true) :
    sums (writeTerm c fs) = (fs.map sums).sum ∧ cost .factor (writeTerm c fs) = (fs.map (cost .apart)).sum ∧
      skew (writeTerm c fs) = (fs.map skew).sum := by
  unfold writeTerm
  split
  · cases fs with
    | nil => exact ⟨rfl, rfl, rfl⟩
    | cons f rest =>
      obtain ⟨hf, hrest⟩ := List.forall_mem_cons.mp hfs
      have htimes := weigh_times (g := f) hrest
      rwa [cost_factor_of_atom hf] at htimes
  · have htimes := weigh_times (g := .literal () c) hfs
    simpa only [sums, cost, skew, Role.literal, Nat.zero_add] using htimes

theorem weigh_addTerms {ts : List (Summand α)} (hts : ∀ t ∈ ts, t.Read) (sum : Term α) :
    sums (ts.foldl addTerm sum) = sums sum + weigh 1 sums ts ∧
      cost .factor (ts.foldl addTerm sum) = cost .factor sum + weigh 1 (cost .apart) ts ∧
      skew (ts.foldl addTerm sum) = skew sum + weigh 0 skew ts := by
  induction ts generalizing sum with
  | nil => exact ⟨rfl, rfl, rfl⟩
  | cons t ts ih =>
    obtain ⟨ht, hts⟩ := List.forall_mem_cons.mp hts
    obtain ⟨hsums, hcost, hskew⟩ := ih hts (addTerm sum t)
    obtain ⟨hsums', hcost', hskew'⟩ := weigh_writeTerm (Scalar.abs t.coeff) ht.atoms
    have hchain := chain_add_of_not_additive
      (isAdditive_writeTerm (c := Scalar.abs t.coeff) (Summand.Read.perm (.refl _) ht))
    rw [List.foldl_cons, hsums, hcost, hskew]
    simp only [addTerm, weigh_cons]
    cases Scalar.lt t.coeff Scalar.zero <;>
      simp only [Bool.false_eq_true, if_false, if_true, sums, cost, skew, BinaryOp.isAdditive, Role.toll, chain_sub] <;>
      omega

/-- **A written sum** has the sums and the cost of its terms. -/
theorem weigh_writeTerms {ts : List (Summand α)} (hts : ∀ t ∈ ts, t.Read) (hne : ts ≠ []) :
    sums (writeTerms ts) + 1 = weigh 1 sums ts ∧ cost .factor (writeTerms ts) + 1 = weigh 1 (cost .apart) ts ∧
      skew (writeTerms ts) = weigh 0 skew ts := by
  cases ts with
  | nil => exact absurd rfl hne
  | cons t ts =>
    obtain ⟨ht, hts⟩ := List.forall_mem_cons.mp hts
    obtain ⟨hsums, hcost, hskew⟩ := weigh_writeTerm t.coeff ht.atoms
    obtain ⟨hsums', hcost', hskew'⟩ := weigh_addTerms hts (writeTerm t.coeff t.factors)
    simp only [writeTerms, weigh_cons]
    omega

theorem isAdditive_addTerms {ts : List (Summand α)} (hts : ts ≠ []) (sum : Term α) :
    (ts.foldl addTerm sum).isAdditive = true := by
  induction ts generalizing sum with
  | nil => exact absurd rfl hts
  | cons t ts ih =>
    cases ts with
    | nil =>
      rw [List.foldl_cons, List.foldl_nil, addTerm]
      split <;> rfl
    | cons u ts => exact ih (List.cons_ne_nil _ _) _

/-- Two terms or more are written as a sum. -/
theorem isAdditive_writeTerms {ts : List (Summand α)} (hts : 2 ≤ ts.length) : (writeTerms ts).isAdditive = true := by
  cases ts with
  | nil => cases hts
  | cons t ts => exact isAdditive_addTerms (List.ne_nil_of_length_pos (Nat.le_of_succ_le_succ hts)) _

/-! ## Collecting -/

/-- **A sum with its terms collected** has fewer sums, or it is a sum that costs no more and is no more skew. -/
theorem weigh_collectSum {t : Term α} (ht : t.isAdditive = true) : sums (collectSum t) < sums t ∨
    sums (collectSum t) = sums t ∧ (collectSum t).isAdditive = true ∧ cost .factor (collectSum t) ≤ cost .factor t ∧
      skew (collectSum t) ≤ skew t := by
  let ts := constantFirst ((mergeTerms (readTerms t one)).filter Summand.stays)
  have hts : ∀ s ∈ ts, s.Read := fun s hs => ((ready_collected t).written s hs).toRead
  obtain ⟨hsums, hcost, hskew⟩ := weigh_readTerms t one
  have hlength := length_readTerms t one
  rw [ht, if_pos rfl] at hlength
  change sums (writeTerms ts) < sums t ∨ sums (writeTerms ts) = sums t ∧ (writeTerms ts).isAdditive = true ∧
    cost .factor (writeTerms ts) ≤ cost .factor t ∧ skew (writeTerms ts) ≤ skew t
  by_cases hne : ts = []
  · rw [hne]
    exact .inl (cost_of_additive ht .factor).2
  · obtain ⟨hsums', hcost', hskew'⟩ := weigh_writeTerms hts hne
    have hsums'' : weigh 1 sums ts ≤ weigh 1 sums (readTerms t one) := weigh_collected _
    have hcost'' : weigh 1 (cost .apart) ts ≤ weigh 1 (cost .apart) (readTerms t one) := weigh_collected _
    have hskew'' : weigh 0 skew ts ≤ weigh 0 skew (readTerms t one) := weigh_collected _
    rcases Nat.lt_or_ge (sums (writeTerms ts)) (sums t) with hlt | hge
    · exact .inl hlt
    -- No term went, so there are two or more.
    have hzero : weigh 0 sums ts ≤ weigh 0 sums (readTerms t one) := weigh_collected _
    have hsucc : weigh 1 sums ts = ts.length + weigh 0 sums ts := weigh_succ _
    have hsucc' : weigh 1 sums (readTerms t one) = (readTerms t one).length + weigh 0 sums (readTerms t one) :=
      weigh_succ _
    exact .inr ⟨by omega, isAdditive_writeTerms (by omega), by omega, by omega⟩

/-- **Collecting makes no tree costlier.** -/
theorem isMild_collect : (collectRule : Rule α).IsMild := by
  intro b t u h
  obtain ⟨rfl, ht, -, -⟩ := collectRule_eq_some h
  rcases weigh_collectSum ht with hlt | ⟨hsums, hu, hcost, -⟩
  · exact .inl hlt
  · have hliteral : t.literal? = none := by
      cases t with
      | literal => cases ht
      | _ => rfl
    refine .of_le hliteral hsums.le fun p => ?_
    rw [(cost_of_additive ht p).1, (cost_of_additive hu p).1]
    exact Nat.add_le_add_right hcost _

/-! ## Skew -/

section Skew

variable {b inSum : Bool} {t u v a a' c c' : Term α}

/-- **A tree is no more skew than another**: it has fewer sums, or as many and is no more skew. Its chains are no
longer, except for that of a sum which is no operand of one. -/
def NoSkewer (inSum : Bool) (u t : Term α) : Prop :=
  sums u < sums t ∨ sums u = sums t ∧ skew u ≤ skew t ∧
    ∀ op : BinaryOp, (op.isAdditive = true → inSum = true) → chain op u ≤ chain op t

omit [Scalar α]

theorem NoSkewer.refl (inSum : Bool) (t : Term α) : NoSkewer inSum t t :=
  .inr ⟨rfl, Nat.le_refl _, fun _ _ => Nat.le_refl _⟩

theorem NoSkewer.sums_le (h : NoSkewer inSum u t) : sums u ≤ sums t := by
  rcases h with h | ⟨h, -⟩
  · exact h.le
  · exact h.le

theorem NoSkewer.trans (hu : NoSkewer inSum u t) (ht : NoSkewer inSum t v) : NoSkewer inSum u v := by
  rcases hu with hu | ⟨hsums, hskew, hchain⟩
  · exact .inl (hu.trans_le ht.sums_le)
  · rcases ht with ht | ⟨hsums', hskew', hchain'⟩
    · exact .inl (hsums.trans_lt ht)
    · exact .inr ⟨hsums.trans hsums', hskew.trans hskew', fun op hop => (hchain op hop).trans (hchain' op hop)⟩

theorem NoSkewer.negate (h : NoSkewer false u t) : NoSkewer inSum (.negate () u) (.negate () t) := by
  rcases h with h | ⟨hsums, hskew, -⟩
  · exact .inl h
  · exact .inr ⟨hsums, hskew, fun _ _ => Nat.le_refl _⟩

/-- **Operands that are no more skew make a node no more skew.** -/
theorem NoSkewer.binary (op : BinaryOp) (ha : NoSkewer op.isAdditive a' a) (hc : NoSkewer op.isAdditive c' c) :
    NoSkewer inSum (.binary () op a' c') (.binary () op a c) := by
  rcases ha with ha | ⟨hsumsa, hskewa, hchaina⟩
  · have hsumsc := hc.sums_le
    exact .inl (by simp only [sums]; omega)
  · rcases hc with hc | ⟨hsumsc, hskewc, hchainc⟩
    · exact .inl (by simp only [sums]; omega)
    · refine .inr ⟨by simp only [sums]; omega, ?_, fun o _ => ?_⟩
      · have hchain := hchainc op id
        simp only [skew]
        omega
      · rw [chain, chain]
        split
        · next hfamily =>
          have hop : o.isAdditive = true → op.isAdditive = true := by
            cases o <;> cases op <;> first | exact id | cases hfamily
          have hlea := hchaina o hop
          have hlec := hchainc o hop
          omega
        · exact Nat.le_refl _

theorem NoSkewer.list {us ts : List (Term α)} (h : List.Forall₂ (NoSkewer false) us ts) :
    NoSkewer inSum (.list () us) (.list () ts) := by
  have hall : sumsAll us < sumsAll ts ∨ sumsAll us = sumsAll ts ∧ skewAll us ≤ skewAll ts := by
    induction h with
    | nil => exact .inr ⟨rfl, Nat.le_refl _⟩
    | cons hut _ ih =>
      have hle := hut.sums_le
      rcases hut with hut | ⟨hsums, hskew, -⟩
      · refine .inl ?_
        simp only [sumsAll]
        omega
      · simp only [sumsAll, skewAll]
        omega
  rcases hall with h | ⟨hsums, hskew⟩
  · exact .inl h
  · exact .inr ⟨hsums, hskew, fun _ _ => Nat.le_refl _⟩

variable [Scalar α]

theorem noSkewer_count (inSum : Bool) (t : Term α) : NoSkewer inSum (collectRule.count inSum t).1 t := by
  rw [Rule.count]
  cases h : collectRule inSum t with
  | none => exact .refl inSum t
  | some u =>
    obtain ⟨rfl, ht, hinSum, -⟩ := collectRule_eq_some h
    rcases weigh_collectSum ht with hlt | ⟨hsums, hu, -, hskew⟩
    · exact .inl hlt
    · refine .inr ⟨hsums, hskew, fun op hop => ?_⟩
      have hop' : op.isAdditive = false := Bool.eq_false_iff.mpr fun hadditive => by
        rw [hop hadditive] at hinSum
        cases hinSum
      rw [chain_of_additive hu hop']
      exact Nat.zero_le _

mutual

/-- **Collecting makes no tree more skew**, unless sums go. -/
theorem noSkewer_collect (inSum : Bool) (t : Term α) : NoSkewer inSum (rewriteUp collectRule inSum t).1 t := by
  match t with
  | .literal _ _ | .var _ _ | .infinity _ => exact noSkewer_count inSum _
  | .negate _ t => exact (noSkewer_count inSum _).trans (noSkewer_collect false t).negate
  | .binary _ op x y =>
    exact (noSkewer_count inSum _).trans
      (.binary op (noSkewer_collect op.isAdditive x) (noSkewer_collect op.isAdditive y))
  | .list _ items => exact (noSkewer_count inSum _).trans (.list (noSkewer_collectAll items))

theorem noSkewer_collectAll (ts : List (Term α)) :
    List.Forall₂ (NoSkewer false) (rewriteUpAll collectRule ts).1 ts := by
  match ts with
  | [] => exact .nil
  | t :: ts => exact .cons (noSkewer_collect false t) (noSkewer_collectAll ts)

end

end Skew

end SignalFlow.Rewrite
