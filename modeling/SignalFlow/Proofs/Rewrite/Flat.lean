import SignalFlow.Proofs.Rewrite.Collected

/-!
# Rules make collected trees cheaper

The sums of a collected tree are flat (`flatSum_of_collected`): their terms are atoms, one after the other, under a
single coefficient other than one. A coefficient costs nothing, so a rule that only changed coefficients would not make
the tree cheaper; but in a flat product there is nothing to fold and no unit to drop. So a rule that lowers the cost of
what it changes makes a collected tree cheaper or changes nothing (`Rule.Lowers.settlesCollected`).
-/

namespace SignalFlow

open SignalFlow.Tree
open Scalar (one Coefficients)

variable {α : Type} [Scalar α]

/-! ## Flat sums -/

namespace Tree

/-- **A product of atoms** under one coefficient, which is not one. -/
def FlatProduct : Term α → Prop
  | .literal _ _ => True
  | .binary _ .mul a b => a.isLiteral one = false ∧ FlatProduct a ∧ b.isAtom = true
  | t => t.isAtom = true

/-- **A sum of flat products**, leaning to the left. -/
def FlatSum : Term α → Prop
  | .binary _ .add a b | .binary _ .sub a b => FlatSum a ∧ FlatProduct b ∧ b.isAdditive = false
  | t => FlatProduct t

theorem flatProduct_of_atom {t : Term α} (ht : t.isAtom = true) : FlatProduct t := by
  cases t with
  | literal | negate => cases ht
  | binary l op a b =>
    cases op with
    | mul | div => cases ht
    | _ => rfl
  | _ => rfl

/-- A tree that is no sum is a flat sum as a flat product. -/
theorem flatSum_iff_flatProduct {t : Term α} (hadditive : t.isAdditive = false) : FlatSum t ↔ FlatProduct t := by
  cases t with
  | binary l op a b =>
    cases op with
    | add | sub => cases hadditive
    | _ => rfl
  | _ => rfl

theorem isAtom_of_same {t u : Term α} (h : t.same u = true) : t.isAtom = u.isAtom := by
  cases t <;> cases u <;> first | rfl | cases h | skip
  next l op a b k o x y =>
    obtain rfl : op = o := eq_of_beq (Bool.and_eq_true_iff.mp h).1
    cases op <;> rfl

theorem isAdditive_of_same {t u : Term α} (h : t.same u = true) : t.isAdditive = u.isAdditive := by
  cases t <;> cases u <;> first | rfl | cases h | skip
  next l op a b k o x y =>
    obtain rfl : op = o := eq_of_beq (Bool.and_eq_true_iff.mp h).1
    rfl

theorem isLiteral_of_same [Coefficients α] {t u : Term α} (h : t.same u = true) :
    t.isLiteral one = u.isLiteral one := by
  cases t <;> cases u <;> first | rfl | cases h | skip
  next l v k w => exact Coefficients.eq_one h

/-- **A tree that is the same as a flat product is one.** -/
theorem FlatProduct.of_same [Coefficients α] {t u : Term α} (hu : FlatProduct u) (h : t.same u = true) :
    FlatProduct t := by
  induction t using childInduction generalizing u with
  | h t ih =>
    cases t with
    | binary l op a b =>
      cases u with
      | binary k o x y =>
        obtain ⟨hop, hab⟩ := Bool.and_eq_true_iff.mp h
        obtain ⟨ha, hb⟩ := Bool.and_eq_true_iff.mp hab
        obtain rfl : op = o := eq_of_beq hop
        cases op with
        | mul =>
          obtain ⟨hone, hx, hy⟩ := hu
          exact ⟨(isLiteral_of_same ha).trans hone, ih a List.mem_cons_self hx ha, (isAtom_of_same hb).trans hy⟩
        | div => cases hu
        | _ => rfl
      | _ => cases h
    | negate l t =>
      cases u with
      | negate => cases hu
      | _ => cases h
    | literal => trivial
    | _ => rfl

/-- **A tree that is the same as a flat sum is one.** -/
theorem FlatSum.of_same [Coefficients α] {t u : Term α} (hu : FlatSum u) (h : t.same u = true) : FlatSum t := by
  induction t using childInduction generalizing u with
  | h t ih =>
    cases hadditive : t.isAdditive with
    | false =>
      have hproduct : FlatProduct u := (flatSum_iff_flatProduct ((isAdditive_of_same h).symm.trans hadditive)).mp hu
      exact (flatSum_iff_flatProduct hadditive).mpr (hproduct.of_same h)
    | true =>
      cases t with
      | binary l op a b =>
        cases u with
        | binary k o x y =>
          obtain ⟨hop, hab⟩ := Bool.and_eq_true_iff.mp h
          obtain ⟨ha, hb⟩ := Bool.and_eq_true_iff.mp hab
          obtain rfl : op = o := eq_of_beq hop
          cases op with
          | add | sub =>
            obtain ⟨hx, hy, hadd⟩ := hu
            exact ⟨ih a List.mem_cons_self hx ha, hy.of_same hb, (isAdditive_of_same hb).trans hadd⟩
          | _ => cases hadditive
        | _ => cases h
      | _ => cases hadditive

end Tree

namespace Rewrite

/-! ## Collected sums are flat -/

theorem flatProduct_times {g : Term α} {rest : List (Term α)} (hone : g.isLiteral one = false)
    (hg : FlatProduct g) (hrest : ∀ f ∈ rest, f.isAtom = true) : FlatProduct (times g rest) := by
  induction rest generalizing g with
  | nil => exact hg
  | cons f rest ih =>
    obtain ⟨hf, hrest⟩ := List.forall_mem_cons.mp hrest
    exact ih (g := .binary () .mul g f) rfl ⟨hone, hg, hf⟩ hrest

theorem flatProduct_writeTerm (c : α) {fs : List (Term α)} (hfs : ∀ f ∈ fs, f.isAtom = true) :
    FlatProduct (writeTerm c fs) := by
  unfold writeTerm
  split
  · cases fs with
    | nil => trivial
    | cons f rest =>
      obtain ⟨hf, hrest⟩ := List.forall_mem_cons.mp hfs
      have hone : f.isLiteral one = false := by
        cases f with
        | literal => cases hf
        | _ => rfl
      exact flatProduct_times hone (flatProduct_of_atom hf) hrest
  · next hone => exact flatProduct_times (g := .literal () c) (Bool.eq_false_iff.mpr hone) trivial hfs

theorem flatSum_writeTerms {ts : List (Summand α)} (hts : ∀ t ∈ ts, t.Read) : FlatSum (writeTerms ts) := by
  have hterm : ∀ (c : α) (t : Summand α), t.Read →
      FlatProduct (writeTerm c t.factors) ∧ (writeTerm c t.factors).isAdditive = false := fun c t ht =>
    ⟨flatProduct_writeTerm c ht.atoms, isAdditive_writeTerm (Summand.Read.perm (.refl _) ht)⟩
  have hrest : ∀ (rest : List (Summand α)) (sum : Term α), (∀ t ∈ rest, t.Read) → FlatSum sum →
      FlatSum (rest.foldl addTerm sum) := by
    intro rest
    induction rest with
    | nil => exact fun sum _ hsum => hsum
    | cons t rest ih =>
      intro sum hread hsum
      obtain ⟨ht, hread⟩ := List.forall_mem_cons.mp hread
      refine ih _ hread ?_
      rw [addTerm]
      split <;> exact ⟨hsum, hterm _ t ht⟩
  cases ts with
  | nil => trivial
  | cons t ts =>
    obtain ⟨ht, hts⟩ := List.forall_mem_cons.mp hts
    obtain ⟨hproduct, hadditive⟩ := hterm t.coeff t ht
    exact hrest ts _ hts ((flatSum_iff_flatProduct hadditive).mpr hproduct)

/-- **A collected sum is flat.** -/
theorem flatSum_of_collected [Coefficients α] {t : Term α} (ht : t.Collected false) (hadditive : t.isAdditive = true) :
    FlatSum t := by
  have hsame : t.same (collectSum t) = true := by
    cases t with
    | binary l op a b =>
      rw [Collected] at ht
      exact ht.2 hadditive rfl
    | _ => cases hadditive
  exact (flatSum_writeTerms fun s hs => ((ready_collected t).written s hs).toRead).of_same hsame

/-! ## Rules that lower the cost -/

section Settles

variable {r : Rule α} {p : Role} {b : Bool} {t t' a c : Term α} {n : Nat}

omit [Scalar α] in
/-- **A change at the root** of a tree that makes it cheaper, after changes in its operands that do so. -/
theorem cheaper_count (hr : r.IsMild) (hle : NoCostlier t' t) (h : n = 0 ∨ Cheaper p t' t)
    (hroot : n = 0 → ∀ u, r b t' = some u → Cheaper p u t') :
    n + (r.count b t').2 = 0 ∨ Cheaper p (r.count b t').1 t := by
  rw [Rule.count]
  cases hu : r b t' with
  | none => exact h
  | some u =>
    refine .inr ?_
    rcases h with hn | hcheaper
    · exact (hroot hn u hu).trans_noCostlier hle
    · exact (hr b t' u hu).trans_cheaper hcheaper

/-- **A pass by a rule makes a tree cheaper** or changes nothing. -/
def Rule.Settles (r : Rule α) (p : Role) (t : Term α) : Prop :=
  ∀ b, (rewriteUp r b t).2 = 0 ∨ Cheaper p (rewriteUp r b t).1 t

namespace Rule.Lowers

/-- A literal stays. -/
theorem literal (hr : r.Lowers) (v : α) : r.Settles p (.literal () v) := by
  intro b
  have hnone : r b (.literal () v) = none := by
    refine Option.eq_none_iff_forall_ne_some.mpr fun u hu => ?_
    have hpos := cost_pos u
    rcases hr.apart b _ u hu with hlt | ⟨-, hlt⟩
    · exact Nat.not_lt_zero _ hlt
    · simp only [cost, Role.literal] at hlt
      omega
  rw [rewriteUp, Rule.count, hnone]
  exact .inl rfl

/-- **An operator whose operands settle settles**, where a rule can only change it by making it cheaper. -/
theorem binary (hr : r.Lowers) {op : BinaryOp} (ha : r.Settles (p.left op) a) (hc : r.Settles (p.right op) c)
    (hroot : p = .apart ∨ op.isAdditive = true ∨ op = .mul ∧ a.isLiteral one = false ∧ c.isAtom = true) :
    r.Settles p (.binary () op a c) := by
  intro b
  have hlea := noCostlier_rewriteUp hr.mild op.isAdditive a
  have hlec := noCostlier_rewriteUp hr.mild op.isAdditive c
  refine cheaper_count hr.mild (.binary op hlea hlec) ?_ fun hn u hu => ?_
  · rcases ha op.isAdditive with ha | ha
    · rcases hc op.isAdditive with hc | hc
      · exact .inl (by omega)
      · exact .inr (.binary op hlea hlec (.inr hc))
    · exact .inr (.binary op hlea hlec (.inl ha))
  · rcases hroot with rfl | hop | ⟨rfl, hone, hatom⟩
    · exact hr.apart b _ u hu
    · exact .inl (hr.sum b _ u hu hop)
    · -- Nothing changed in the operands, so the product is as it was.
      rw [rewriteUp_unchanged (Nat.eq_zero_of_add_eq_zero_right hn),
        rewriteUp_unchanged (Nat.eq_zero_of_add_eq_zero_left hn), hr.product b a c hatom hone] at hu
      cases hu

theorem items (hr : r.Lowers) {ts : List (Term α)} (h : ∀ t ∈ ts, r.Settles .apart t) :
    (rewriteUpAll r ts).2 = 0 ∨ Cheaper .apart (.list () (rewriteUpAll r ts).1) (.list () ts) := by
  induction ts with
  | nil => exact .inl rfl
  | cons t ts ih =>
    obtain ⟨ht, hts⟩ := List.forall_mem_cons.mp h
    have hle : sums (rewriteUp r false t).1 < sums t ∨
        sums (rewriteUp r false t).1 = sums t ∧ cost .apart (rewriteUp r false t).1 ≤ cost .apart t :=
      (noCostlier_rewriteUp hr.mild false t).imp_right fun h => ⟨h.1, h.2.1 .apart⟩
    have hles : sumsAll (rewriteUpAll r ts).1 < sumsAll ts ∨
        sumsAll (rewriteUpAll r ts).1 = sumsAll ts ∧
          1 + 0 + costAll (rewriteUpAll r ts).1 ≤ 1 + 0 + costAll ts :=
      (NoCostlier.list (noCostlier_rewriteUpAll hr.mild ts)).imp_right fun h => ⟨h.1, h.2.1 .apart⟩
    have htlt := ht false
    have htslt := ih hts
    simp only [rewriteUpAll, Cheaper, sums, sumsAll, cost, costAll, Role.toll] at htlt htslt ⊢
    omega

theorem leaf (hr : r.Lowers) (ht : ∀ b, rewriteUp r b t = r.count b t) : r.Settles .apart t := by
  intro b
  have hroot := cheaper_count hr.mild (.refl t) (.inl rfl) fun _ u hu => hr.apart b _ u hu
  rwa [Nat.zero_add, ← ht] at hroot

theorem negate (hr : r.Lowers) (ht : r.Settles .apart t) : r.Settles .apart (.negate () t) := fun b =>
  cheaper_count hr.mild (noCostlier_rewriteUp hr.mild false t).negate ((ht false).imp_right Cheaper.negate)
    fun _ u hu => hr.apart b _ u hu

theorem list (hr : r.Lowers) {ts : List (Term α)} (h : ∀ t ∈ ts, r.Settles .apart t) :
    r.Settles .apart (.list () ts) := fun b =>
  cheaper_count hr.mild (.list (noCostlier_rewriteUpAll hr.mild ts)) (hr.items h) fun _ u hu => hr.apart b _ u hu

end Rule.Lowers

/-- **What a pass by the rule does to a collected tree**: by itself, as a flat product and as a flat sum. -/
structure Rule.SettlesCollected [Coefficients α] (r : Rule α) (t : Term α) : Prop where
  apart : t.Collected false → r.Settles .apart t
  product : t.Collected false → FlatProduct t → r.Settles .factor t
  sum : t.Collected true → FlatSum t → r.Settles .factor t

namespace Rule.Lowers

variable [Coefficients α]

/-- A flat sum, in any place. -/
theorem settles_flatSum (hr : r.Lowers) (ih : ∀ c ∈ t.children, r.SettlesCollected c) (hadditive : t.isAdditive = true)
    (hcollected : t.Collected true) (hflat : FlatSum t) (p : Role) : r.Settles p t := by
  cases t with
  | binary l op a c =>
    have iha := ih a List.mem_cons_self
    have ihc := ih c (List.mem_cons_of_mem _ (List.mem_singleton_self c))
    rw [Collected] at hcollected
    cases op with
    | add | sub =>
      have hsummand : c.Collected false := hcollected.1.2.of_not_additive hflat.2.2
      exact hr.binary (iha.sum hcollected.1.1 hflat.1) (ihc.product hsummand hflat.2.1) (.inr (.inl rfl))
    | _ => cases hadditive
  | _ => cases hadditive

/-- A collected tree by itself. -/
theorem settles_apart (hr : r.Lowers) (ih : ∀ c ∈ t.children, r.SettlesCollected c)
    (hcollected : t.Collected false) : r.Settles .apart t := by
  cases hadditive : t.isAdditive with
  | true =>
    have hflat : FlatSum t := flatSum_of_collected hcollected hadditive
    exact hr.settles_flatSum ih hadditive hcollected.inSum hflat .apart
  | false =>
    cases t with
    | literal l v => exact hr.literal v
    | var | infinity => exact hr.leaf fun _ => rfl
    | negate l t =>
      rw [Collected] at hcollected
      exact hr.negate ((ih t List.mem_cons_self).apart hcollected)
    | list l items =>
      rw [Collected] at hcollected
      exact hr.list fun t ht => (ih t ht).apart (collected_of_mem hcollected ht)
    | binary l op a c =>
      rw [Collected] at hcollected
      have ha := (ih a List.mem_cons_self).apart
      have hc := (ih c (List.mem_cons_of_mem _ (List.mem_singleton_self c))).apart
      cases op with
      | add | sub => cases hadditive
      | _ => exact hr.binary (ha hcollected.1.1) (hc hcollected.1.2) (.inl rfl)

/-- A flat product, as a factor or a term. -/
theorem settles_flatProduct (hr : r.Lowers) (ih : ∀ c ∈ t.children, r.SettlesCollected c)
    (hcollected : t.Collected false) (hflat : FlatProduct t) : r.Settles .factor t := by
  have hatom : t.isAtom = true → r.Settles .factor t := fun hatom b =>
    (hr.settles_apart ih hcollected b).imp_right fun hcheaper => hcheaper.factor (cost_factor_of_atom hatom)
  cases t with
  | literal l v => exact hr.literal v
  | binary l op a c =>
    cases op with
    | mul =>
      have iha := ih a List.mem_cons_self
      have ihc := ih c (List.mem_cons_of_mem _ (List.mem_singleton_self c))
      obtain ⟨hone, hflata, hatomc⟩ := hflat
      rw [Collected] at hcollected
      exact hr.binary (iha.product hcollected.1.1 hflata) (ihc.product hcollected.1.2 (flatProduct_of_atom hatomc))
        (.inr (.inr ⟨rfl, hone, hatomc⟩))
    | _ => exact hatom hflat
  | _ => exact hatom hflat

/-- **A rule that lowers the cost of what it changes makes collected trees cheaper** or changes nothing. -/
theorem settlesCollected (hr : r.Lowers) (t : Term α) : r.SettlesCollected t := by
  induction t using childInduction with
  | h t ih =>
    refine ⟨hr.settles_apart ih, hr.settles_flatProduct ih, fun hcollected hflat => ?_⟩
    cases hadditive : t.isAdditive with
    | true => exact hr.settles_flatSum ih hadditive hcollected hflat .factor
    | false =>
      have hproduct : FlatProduct t := (flatSum_iff_flatProduct hadditive).mp hflat
      exact hr.settles_flatProduct ih (hcollected.of_not_additive hadditive) hproduct

end Rule.Lowers

end Settles

end Rewrite

end SignalFlow
