import SignalFlow.Proofs.Rewrite.Collected

/-!
# Like terms are merged

Terms are like if they have the same factors in any order. Collecting sorts the factors of each term by their texts and
then compares place by place, so it takes like terms for different ones only if the texts do not tell their factors
apart: if two different factors have one text, or one factor two texts. Otherwise no two terms of a sum that collecting
leaves are like (`Expr.collectTerms_merges`). There are such factors: `x^-1` may be a power of the number `-1` or of the
opposite of `1`, and the sum of the two products of these two powers is left as it is (`Expr.collectTerms_misses`).
-/

namespace SignalFlow

open SignalFlow.Tree
open Scalar (one Coefficients)

variable {α : Type} [Scalar α]

namespace Rewrite

/-! ## Like factors -/

/-- **The same factors** in any order. -/
def Like (fs gs : List (Term α)) : Prop := ∃ hs : List (Term α), hs.Perm gs ∧ sameAll fs hs = true

/-- **The texts tell factors apart**: two of them have one text if they are the same, and only then. -/
def ToldApart (fs : List (Term α)) : Prop := ∀ f ∈ fs, ∀ g ∈ fs, f.text = g.text ↔ f.same g = true

theorem sameAll_iff_map_text {fs gs : List (Term α)}
    (htold : ∀ f ∈ fs, ∀ g ∈ gs, f.text = g.text ↔ f.same g = true) :
    sameAll fs gs = true ↔ fs.map text = gs.map text := by
  induction fs generalizing gs with
  | nil =>
    cases gs with
    | nil => exact iff_of_true rfl rfl
    | cons g gs => exact iff_of_false Bool.false_ne_true (List.cons_ne_nil _ _).symm
  | cons f fs ih =>
    cases gs with
    | nil => exact iff_of_false Bool.false_ne_true (List.cons_ne_nil _ _)
    | cons g gs =>
      have hrest := ih fun f hf g hg => htold f (List.mem_cons_of_mem _ hf) g (List.mem_cons_of_mem _ hg)
      have hfirst := htold f List.mem_cons_self g List.mem_cons_self
      rw [sameAll, Bool.and_eq_true, List.map_cons, List.map_cons, List.cons.injEq, hrest, hfirst]

/-- **Like factors are the same when they are sorted**, if their texts tell them apart. -/
theorem sameAll_sortFactors {fs gs : List (Term α)} (h : Like fs gs) (htold : ToldApart (fs ++ gs)) :
    sameAll (sortFactors fs) (sortFactors gs) = true := by
  obtain ⟨hs, hperm, hsame⟩ := h
  have hmem : ∀ {f}, f ∈ sortFactors fs → f ∈ fs ++ gs := fun hf =>
    List.mem_append_left _ ((sortFactors_perm fs).mem_iff.mp hf)
  have hmem' : ∀ {g}, g ∈ sortFactors gs → g ∈ fs ++ gs := fun hg =>
    List.mem_append_right _ ((sortFactors_perm gs).mem_iff.mp hg)
  have hmap : fs.map text = hs.map text := (sameAll_iff_map_text fun f hf g hg =>
    htold f (List.mem_append_left _ hf) g (List.mem_append_right _ (hperm.mem_iff.mp hg))).mp hsame
  have htexts : ((sortFactors fs).map text).Perm ((sortFactors gs).map text) := by
    refine ((sortFactors_perm fs).map text).trans ?_
    rw [hmap]
    exact (hperm.map text).trans ((sortFactors_perm gs).map text).symm
  have heq : (sortFactors fs).map text = (sortFactors gs).map text :=
    htexts.eq_of_pairwise (fun _ _ _ _ hle hge => String.le_antisymm hle hge) (sorted_sortFactors fs)
      (sorted_sortFactors gs)
  exact (sameAll_iff_map_text fun f hf g hg => htold f (hmem hf) g (hmem' hg)).mpr heq

/-! ## Collected sums -/

mutual

/-- Trees that are the same have the same number of sums. -/
theorem sums_of_same {t u : Term α} (h : t.same u = true) : sums t = sums u := by
  match t, u with
  | .literal _ _, .literal _ _ | .var _ _, .var _ _ | .infinity _, .infinity _ => rfl
  | .negate _ t, .negate _ u => exact sums_of_same (t := t) (u := u) h
  | .binary _ op a b, .binary _ op' a' b' =>
    obtain ⟨hop, hab⟩ := Bool.and_eq_true_iff.mp h
    obtain ⟨ha, hb⟩ := Bool.and_eq_true_iff.mp hab
    rw [sums, sums, eq_of_beq hop, sums_of_same ha, sums_of_same hb]
  | .list _ items, .list _ others =>
    have hitems : sameAll items others = true := h
    exact sumsAll_of_sameAll hitems

theorem sumsAll_of_sameAll {ts us : List (Term α)} (h : sameAll ts us = true) : sumsAll ts = sumsAll us := by
  match ts, us with
  | [], [] => rfl
  | t :: ts, u :: us =>
    obtain ⟨ht, hts⟩ := Bool.and_eq_true_iff.mp h
    rw [sumsAll, sumsAll, sums_of_same ht, sumsAll_of_sameAll hts]

end

/-- **A sum that collecting leaves** has terms of which no two have the same sorted factors: if terms were merged or
dropped there would be fewer sums. -/
theorem sorted_readTerms {t : Term α} (hadditive : t.isAdditive = true) (hsame : t.same (collectSum t) = true) :
    (readTerms t one).Pairwise fun x y => sameAll (sortFactors x.factors) (sortFactors y.factors) = false := by
  set ts := readTerms t one with hts
  set collected := constantFirst ((mergeTerms ts).filter Summand.stays) with hcollected
  have hread : ∀ s ∈ collected, s.Read := fun s hs => ((ready_collected t).written s hs).toRead
  have hne : collected ≠ [] := by
    intro hnil
    have hzero : collectSum t = .literal () Scalar.zero := congrArg writeTerms hnil
    rw [hzero] at hsame
    cases t with
    | binary => cases hsame
    | _ => cases hadditive
  have hweight : weigh 1 sums ts = weigh 1 sums collected := by
    rw [hts, (weigh_readTerms t one).1, sums_of_same hsame, ← (weigh_writeTerms hread hne).1]
    rfl
  have hlighter : weigh 0 sums collected ≤ weigh 0 sums ts := weigh_collected ts
  rw [weigh_succ, weigh_succ] at hweight
  have hperm : collected.length = ((mergeTerms ts).filter Summand.stays).length := (constantFirst_perm _).length_eq
  have hfilter := List.length_filter_le Summand.stays (mergeTerms ts)
  obtain ⟨hdistinct, hsub⟩ := distinct_mergeTerms ts
  have hlength := hsub.length_le
  simp only [List.length_map] at hlength
  have hall : (mergeTerms ts).map Summand.factors = ts.map fun t => sortFactors t.factors :=
    hsub.eq_of_length (by simp only [List.length_map]; omega)
  rw [Distinct, hall] at hdistinct
  exact List.pairwise_map.mp hdistinct

/-! ## Sums in sums -/

/-- The factors of a product do not depend on the coefficient that one starts from. -/
theorem factors_readFactors (t : Term α) (inverted : Bool) (c d : α) :
    (readFactors t inverted c).2 = (readFactors t inverted d).2 := by
  fun_induction readFactors t inverted c generalizing d with
  | case1 l v inverted c hinverted => rw [readFactors, if_pos hinverted]
  | case2 l v inverted c hinverted hzero => rw [readFactors, if_neg hinverted, if_pos hzero]
  | case3 l v inverted c hinverted hzero => rw [readFactors, if_neg hinverted, if_neg hzero]
  | case4 _ a b inverted c left right iha ihb => exact congrArg₂ (· ++ ·) (iha d) (ihb _)
  | case5 _ a b inverted c left right iha ihb => exact congrArg₂ (· ++ ·) (iha d) (ihb _)
  | case6 _ t inverted c ih => exact ih _
  | case7 t inverted c hliteral hmul hdiv hnegate =>
    rw [readFactors_atom (isAtom_of_not hliteral hmul hdiv hnegate)]

/-- Whether a sum is the only factor of a product, and which one, does not depend on the sign. -/
theorem scaledSum?_sign {t : Term α} {c c' : α} {s : Term α} {hs : s.size < t.size}
    (h : scaledSum? t c = some (c', ⟨s, hs⟩)) (d : α) : ∃ d', scaledSum? t d = some (d', ⟨s, hs⟩) := by
  obtain ⟨hread, hadditive, ht⟩ := scaledSum?_eq_some h
  have hfactors : (readFactors t false d).2 = [(s, false)] := by
    rw [factors_readFactors t false d c, hread]
  obtain ⟨⟨d', u, hu⟩, hsome⟩ := Option.isSome_iff_exists.mp (isSome_scaledSum? ht hfactors hadditive)
  have hread' := (scaledSum?_eq_some hsome).1
  rw [hread'] at hfactors
  obtain rfl : u = s := congrArg Prod.fst (List.singleton_inj.mp hfactors)
  exact ⟨d', hsome⟩

/-- **The factors of the terms of a sum** do not depend on the sign in front of it. -/
theorem factors_readTerms (t : Term α) (c d : α) :
    (readTerms t c).map Summand.factors = (readTerms t d).map Summand.factors := by
  fun_induction readTerms t c generalizing d with
  | case1 c _ a b iha ihb => rw [readTerms, List.map_append, List.map_append, iha d, ihb d]
  | case2 c _ a b iha ihb => rw [readTerms, List.map_append, List.map_append, iha d, ihb (Scalar.neg d)]
  | case3 c t hadd hsub c' s hs h ih =>
    obtain ⟨d', h'⟩ := scaledSum?_sign h d
    have hread : readTerms t d = readTerms s d' := by
      rw [readTerms]
      · rw [h']
      · exact hadd
      · exact hsub
    rw [hread]
    exact ih d'
  | case4 c t hadd hsub h =>
    have hnone : scaledSum? t d = none := by
      refine Option.eq_none_iff_forall_ne_some.mpr ?_
      rintro ⟨d', s, hs⟩ hsome
      obtain ⟨c', h'⟩ := scaledSum?_sign hsome c
      cases h.symm.trans h'
    rw [readTerms_of_not_additive (isAdditive_eq_false hadd hsub) hnone, List.map_singleton, List.map_singleton,
      readProduct, readProduct]
    dsimp only
    rw [factors_readFactors t false c d]

/-- **In a sum no two terms are like**, as far as texts tell their factors apart. -/
def Merged (t : Term α) : Prop := (readTerms t one).Pairwise fun x y =>
  ToldApart (x.factors ++ y.factors) → ¬Like x.factors y.factors

theorem merged_iff {t : Term α} : Merged t ↔ ((readTerms t one).map Summand.factors).Pairwise fun fs gs =>
    ToldApart (fs ++ gs) → ¬Like fs gs :=
  (List.pairwise_map (R := fun fs gs : List (Term α) => ToldApart (fs ++ gs) → ¬Like fs gs)).symm

/-- The operands of a sum have some of its terms. -/
theorem Merged.operand {l : Unit} {op : BinaryOp} {a b : Term α} (h : Merged (.binary l op a b))
    (hop : op.isAdditive = true) : Merged a ∧ Merged b := by
  rw [merged_iff] at h ⊢
  rw [merged_iff]
  have hread : ∃ c, readTerms (.binary l op a b) one = readTerms a one ++ readTerms b c := by
    cases op with
    | add => exact ⟨one, by rw [readTerms]⟩
    | sub => exact ⟨Scalar.neg one, by rw [readTerms]⟩
    | _ => cases hop
  obtain ⟨c, hread⟩ := hread
  rw [hread, List.map_append, factors_readTerms b c one] at h
  exact ⟨(List.pairwise_append.mp h).1, (List.pairwise_append.mp h).2.1⟩

/-- **The sums of a collected tree** have no like terms, as far as texts tell their factors apart. -/
theorem merged_of_collected {b : Bool} {t : Term α} (ht : t.Collected b)
    (hsum : b = true → t.isAdditive = true → Merged t) : t.Everywhere fun s => s.isAdditive = true → Merged s := by
  have hoff : ∀ {P : Prop}, false = true → P := fun h => absurd h Bool.false_ne_true
  induction t using nodeInduction generalizing b with
  | literal | var | infinity => simp [isAdditive, op?]
  | negate l t ih =>
    rw [Collected] at ht
    exact everywhere_negate.mpr ⟨hoff, ih ht hoff⟩
  | list l items ih =>
    rw [Collected] at ht
    exact everywhere_list.mpr ⟨hoff, fun t hmem => ih t hmem (collected_of_mem ht hmem) hoff⟩
  | binary l op x y ihx ihy =>
    rw [Collected] at ht
    obtain ⟨⟨hx, hy⟩, hroot⟩ := ht
    have hmerged : op.isAdditive = true → Merged (.binary l op x y) := by
      intro hop
      cases b with
      | true => exact hsum rfl hop
      | false =>
        refine (sorted_readTerms (t := .binary l op x y) hop (hroot hop rfl)).imp fun {s u} hne htold hlike => ?_
        rw [sameAll_sortFactors hlike htold] at hne
        cases hne
    refine everywhere_binary.mpr ⟨hmerged, ihx hx fun hop _ => ?_, ihy hy fun hop _ => ?_⟩
    · exact ((hmerged hop).operand hop).1
    · exact ((hmerged hop).operand hop).2

/-- Of terms with the coefficient one the factors are written. -/
theorem writeTerms_ones (f g : Term Double) (fs gs : List (Term Double)) :
    writeTerms [⟨one, f :: fs⟩, ⟨one, g :: gs⟩] = .binary () .add (times f fs) (times g gs) := by
  have hone : Scalar.eq (one : Double) one = true := by decide +kernel
  have habs : Scalar.eq (Scalar.abs (one : Double)) one = true := by decide +kernel
  have hlt : Scalar.lt (one : Double) Scalar.zero = false := by decide +kernel
  simp [writeTerms, addTerm, writeTerm, hone, habs, hlt]

/-- Terms with the coefficient one are ready if their factors are. -/
theorem ready_ones {fs gs : List (Term Double)} (hfs : Summand.Read ⟨one, fs⟩) (hgs : Summand.Read ⟨one, gs⟩)
    (hsorted : (fs.map text).Pairwise (· ≤ ·)) (hsorted' : (gs.map text).Pairwise (· ≤ ·))
    (hne : sameAll fs gs = false) (hgs' : gs ≠ []) : Ready [(⟨one, fs⟩ : Summand Double), ⟨one, gs⟩] := by
  have hstays : ∀ fs : List (Term Double), Summand.stays ⟨one, fs⟩ = true := fun fs => by
    have hone : Scalar.isZero (one : Double) = false := by decide +kernel
    simp [Summand.stays, hone]
  refine ⟨List.forall_mem_cons.mpr ⟨⟨hfs, sortFactors_of_sorted hsorted, hstays fs⟩,
    List.forall_mem_singleton.mpr ⟨hgs, sortFactors_of_sorted hsorted', hstays gs⟩⟩, ?_, ?_⟩
  · exact List.pairwise_pair.mpr hne
  · exact List.pairwise_pair.mpr fun h => absurd h hgs'

end Rewrite

namespace Expr

open Rewrite

variable [Coefficients α]

/-- **Collecting merges like terms**: in no sum that it leaves are two terms like, unless two different factors of
theirs have one text, or one factor has two. -/
theorem collectTerms_merges (e : Expr α) {s : Term α} (hs : s ∈ e.collectTerms.1.tree.term.preorder)
    (hadditive : s.isAdditive = true) : (readTerms s one).Pairwise fun x y =>
      ToldApart (x.factors ++ y.factors) → ¬Like x.factors y.factors :=
  merged_of_collected (collected_collectTerms e) nofun s hs hadditive

/-- A sum of terms that are ready is left by collecting. -/
theorem mem_collectTerms_of_ready {ts : List (Summand α)} (hts : Ready ts) (hne : ts ≠ [])
    (hfactors : ∀ t ∈ ts, ∀ f ∈ t.factors, f.Collected false) :
    writeTerms ts ∈ (ofTree (writeTerms ts)).collectTerms.1.tree.term.preorder := by
  have hterm : (ofTree (writeTerms ts)).tree.term = writeTerms ts :=
    (term_place (writeTerms ts) {}).trans (term_eq_self (writeTerms ts))
  have hcollected : (ofTree (writeTerms ts)).tree.term.Collected false := by
    rw [hterm]
    exact collected_of_ready hts hne hfactors
  rw [collectTerms_of_collected hcollected, hterm]
  exact self_mem_preorder (writeTerms ts)

omit [Coefficients α] in
/-- The factors of `y * x` in the order of their texts. -/
theorem sortFactors_swapped : sortFactors [(.var () "y" : Term α), .var () "x"] = [.var () "x", .var () "y"] := by
  have hle : ("y" ≤ "x") = False := by decide +kernel
  have htext : ∀ name, (Tree.var () name : Term α).text = name := fun _ => rfl
  simp [sortFactors, htext, List.mergeSort, List.MergeSort.Internal.splitInTwo, hle]

/-- The first two terms of `x * y + y * x + x` are merged. -/
theorem collectSum_swapped :
    let x : Term Double := .var () "x"
    let y : Term Double := .var () "y"
    collectSum (.binary () .add (.binary () .add (.binary () .mul x y) (.binary () .mul y x)) x) =
      .binary () .add (times (.literal () (Scalar.add one one)) [x, y]) x := by
  intro x y
  have hread : readTerms (.binary () .add (.binary () .add (.binary () .mul x y) (.binary () .mul y x)) x) one =
      [⟨one, [x, y]⟩, ⟨one, [y, x]⟩, ⟨one, [x]⟩] := by
    rw [readTerms, readTerms, readTerms_of_not_additive rfl (by rfl), readTerms_of_not_additive rfl (by rfl),
      readTerms_of_not_additive rfl (by rfl)]
    rfl
  have hx : sortFactors [x] = [x] := List.perm_singleton.mp (sortFactors_perm _)
  have hxy : sortFactors [x, y] = [x, y] := sortFactors_of_sorted (List.pairwise_pair.mpr (by decide +kernel))
  have hyx : sortFactors [y, x] = [x, y] := sortFactors_swapped
  have hmerge : mergeTerms [⟨one, [x, y]⟩, ⟨one, [y, x]⟩, ⟨one, [x]⟩] =
      [⟨Scalar.add one one, [x, y]⟩, ⟨one, [x]⟩] := by
    rw [mergeTerms, List.foldl_cons, List.foldl_cons, List.foldl_cons, List.foldl_nil]
    simp only [hx, hxy, hyx]
    rfl
  rw [collectSum, hread, hmerge]
  subst x y
  rfl

/-- `x * y + y * x + x` becomes `2 * x * y + x`, in which no two terms are like. -/
theorem collectTerms_merges_products :
    let x : Term Double := .var () "x"
    let y : Term Double := .var () "y"
    let e : Expr Double := ofTree (.binary () .add (.binary () .add (.binary () .mul x y) (.binary () .mul y x)) x)
    let s : Term Double := .binary () .add (times (.literal () (Scalar.add one one)) [x, y]) x
    e.collectTerms.1.tree.term = s ∧ (readTerms s one).Pairwise fun u w =>
      ToldApart (u.factors ++ w.factors) → ¬Like u.factors w.factors := by
  intro x y e s
  have hterm : e.collectTerms.1.tree.term = s := by
    refine (Pass.collectTerms.rewrite_term e).1.trans ?_
    change (Rule.count collectRule false
      (.binary () .add (.binary () .add (.binary () .mul x y) (.binary () .mul y x)) x)).1 = _
    rw [Rule.count, collectRule, collectSum_swapped]
    rfl
  have hmem : s ∈ e.collectTerms.1.tree.term.preorder := by
    rw [hterm]
    exact self_mem_preorder s
  exact ⟨hterm, collectTerms_merges e hmem rfl⟩

/-- **Two factors with one text**: `x^-1 * x^(-1) + x^(-1) * x^-1`, with the number `-1` and the opposite of `1`, is
left as it is, although its terms are like. -/
theorem collectTerms_misses :
    let p : Term Double := .binary () .pow (.var () "x") (.literal () Scalar.minusOne)
    let q : Term Double := .binary () .pow (.var () "x") (.negate () (.literal () one))
    let s : Term Double := .binary () .add (.binary () .mul p q) (.binary () .mul q p)
    s ∈ (ofTree s).collectTerms.1.tree.term.preorder ∧ s.isAdditive = true ∧
      ¬(readTerms s one).Pairwise fun x y => ¬Like x.factors y.factors := by
  intro p q s
  have htext : p.text = q.text := by decide +kernel
  have hread : ∀ f g : Term Double, f.isAtom = true → g.isAtom = true → Summand.Read ⟨one, [f, g]⟩ :=
    fun f g hf hg => ⟨by simp [hf, hg], nofun⟩
  have hsorted : ∀ f g : Term Double, f.text = g.text → ([f, g].map Tree.text).Pairwise (· ≤ ·) := fun f g hfg =>
    List.pairwise_pair.mpr (le_of_eq hfg)
  have hready := ready_ones (hread p q rfl rfl) (hread q p rfl rfl) (hsorted p q htext) (hsorted q p htext.symm) rfl
    (List.cons_ne_nil _ _)
  have hmem := mem_collectTerms_of_ready hready (List.cons_ne_nil _ _)
    (by simp [Collected, p, q, BinaryOp.isAdditive])
  have halike := alike_readTerms_writeTerms (fun t ht => (hready.written t ht).toRead) (List.cons_ne_nil _ _)
  rw [writeTerms_ones] at hmem halike
  refine ⟨hmem, rfl, fun hpairwise => ?_⟩
  have hfactors : (readTerms s one).map Summand.factors = [[p, q], [q, p]] := factors_of_alike halike
  have hapart : ((readTerms s one).map Summand.factors).Pairwise fun fs gs => ¬Like fs gs :=
    List.pairwise_map.mpr hpairwise
  rw [hfactors] at hapart
  have hself : sameAll [p, q] [p, q] = true := sameAll_of_terms_eq Coefficients.same_refl _ _ rfl
  exact List.pairwise_pair.mp hapart ⟨[p, q], List.Perm.swap q p [], hself⟩

end Expr

end SignalFlow
