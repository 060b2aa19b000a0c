import Mathlib.Data.List.TakeWhile
import SignalFlow.Proofs.Reader.Exchange
import SignalFlow.Proofs.Reader.Unique

/-!
# Where calls stand

A call `exp(x)` is read as two factors of a product, a variable and a list. Its calls can be expanded (`Settles`) only
if each such variable is a factor and the list is the very next one. `Met` says what becomes of the variable as more is
read: it is ahead, it is the last factor, or it has got its list; every rule keeps this (`met`).

So if the calls of what is read can be expanded, no `/` and no `%` stands in front of any `exp`, a list follows, and no
exponent follows the list (`called_of_calls`).
-/

namespace SignalFlow.Reader

open SignalFlow.Tree

variable {α : Type}

/-! ## Symbols -/

/-- Whether, signs aside, the last symbol is no `/` and no `%`. -/
def undivided (U : List (Symbol α)) : Bool :=
  match U.reverse.dropWhile Symbol.isSign with
  | .slash :: _ | .percent :: _ => false
  | _ => true

/-- Whether a symbol ends a factor. -/
def Symbol.endsAtom : Symbol α → Bool
  | .number _ | .name _ | .infinity | .closing => true
  | _ => false

section Symbols

variable {U P : List (Symbol α)} {y : Symbol α}

theorem undivided_append (hU : undivided U = true) (hP : (∀ z ∈ U, z.isSign = true) → undivided P = true) :
    undivided (P ++ U) = true := by
  rw [undivided] at hU
  rw [undivided, List.reverse_append, List.dropWhile_append]
  match hrest : U.reverse.dropWhile Symbol.isSign with
  | [] =>
    have hsigns : ∀ z ∈ U, z.isSign = true := fun z hz =>
      List.dropWhile_eq_nil_iff.mp hrest z (List.mem_reverse.mpr hz)
    exact hP hsigns
  | z :: rest =>
    rw [hrest] at hU
    cases z <;> first | rfl | cases hU

theorem undivided_of_signs (hU : ∀ z ∈ U, z.isSign = true) : undivided U = true := by
  have hnone : U.reverse.dropWhile Symbol.isSign = [] :=
    List.dropWhile_eq_nil_iff.mpr fun z hz => hU z (List.mem_reverse.mp hz)
  rw [undivided, hnone]

theorem undivided_behind (hy : y.isSign = false) (hslash : y ≠ .slash) (hpercent : y ≠ .percent) :
    undivided (P ++ [y]) = true := by
  rw [undivided, List.reverse_append, List.reverse_singleton, List.singleton_append,
    List.dropWhile_cons_of_neg (Bool.eq_false_iff.mp hy)]
  cases y <;> first | rfl | contradiction

theorem undivided_behind_atom (hy : y.endsAtom = true) : undivided (P ++ [y]) = true := by
  cases y with
  | number | name | infinity | closing => exact undivided_behind rfl nofun nofun
  | _ => cases hy

end Symbols

/-- The rules that read the variable of a call only. -/
def Rule.splits : Rule → Bool
  | .atom | .power | .signed => true
  | _ => false

/-! ## Trees whose calls can be expanded -/

/-- **The calls of a tree can be expanded**, if what follows offers the right argument. -/
def Settles (t : Term α) : Prop := ∃ next r, calls t next = .ok r

section Settles

variable {op : BinaryOp} {t a b : Term α} {ts : List (Term α)}

/-- What stands alone does not end in a call. -/
theorem not_endsInCall {r : Term α × Bool} (h : calls t none = .ok r) : endsInCall t ≠ true := by
  intro ht
  obtain ⟨v, hv⟩ := next_of_calls h (.inr ht)
  cases hv

theorem settles_negate (h : Settles (.negate () t)) :
    Settles t ∧ (endsInCall t = true → endsInCall (.negate () t) = true) := by
  obtain ⟨next, r, h⟩ := h
  obtain ⟨r, hr, -⟩ := map_eq_ok h
  refine ⟨⟨_, r, hr⟩, fun ht => ?_⟩
  obtain ⟨v, hv⟩ := next_of_calls hr (.inr ht)
  cases t with
  | binary => cases hv
  | _ => exact ht

/-- **What the operands of an operator have to be.** Only a product may end in a call, or have a left operand that does;
then the right operand is its argument. -/
theorem settles_binary (h : Settles (.binary () op a b)) :
    Settles a ∧ Settles b ∧ (endsInCall a = true → op = .mul ∧ ∃ y, b = .list () [y]) ∧
      (endsInCall b = true → op = .mul) := by
  obtain ⟨next, r, h⟩ := h
  by_cases hop : op = .mul
  · subst hop
    obtain ⟨⟨v, took⟩, hv, h⟩ := bind_eq_ok (calls_product.symm.trans h)
    have hlist : endsInCall a = true → ∃ y, b = .list () [y] := by
      intro ha
      obtain ⟨u, hu⟩ := next_of_calls hv (.inr ha)
      exact eq_list_of_argumentOf (Option.some.inj hu)
    refine ⟨⟨_, _, hv⟩, ?_, fun ha => ⟨rfl, hlist ha⟩, fun _ => rfl⟩
    cases took with
    | true =>
      obtain ⟨u, hu⟩ := next_of_calls hv (.inl rfl)
      obtain ⟨y, rfl⟩ := eq_list_of_argumentOf (Option.some.inj hu)
      obtain ⟨r, hr, -⟩ := map_eq_ok (Option.some.inj hu)
      refine ⟨none, (.list () [r.1], false), ?_⟩
      rw [calls, callsAll, hr]
      rfl
    | false =>
      obtain ⟨z, hz, -⟩ := bind_eq_ok h
      exact ⟨_, z, hz⟩
  · obtain ⟨v, hv, h⟩ := bind_eq_ok ((calls_binary hop).symm.trans h)
    obtain ⟨z, hz, -⟩ := bind_eq_ok h
    refine ⟨⟨_, v, hv⟩, ⟨_, z, hz⟩, fun ha => ?_, fun hb => ?_⟩
    · exact absurd ha (not_endsInCall hv)
    · exact absurd hb (not_endsInCall hz)

/-- A list settles if each of its items does on its own. -/
theorem settles_list : Settles (.list () ts) ↔ ∀ t ∈ ts, ∃ r, calls t none = .ok r := by
  have hitems : (∃ us, callsAll ts = .ok us) ↔ ∀ t ∈ ts, ∃ r, calls t none = .ok r := by
    induction ts with
    | nil => exact ⟨fun _ => nofun, fun _ => ⟨[], rfl⟩⟩
    | cons t ts ih =>
      rw [List.forall_mem_cons, ← ih]
      constructor
      · rintro ⟨us, hus⟩
        obtain ⟨r, hr, hus⟩ := bind_eq_ok hus
        obtain ⟨us, hus, -⟩ := bind_eq_ok hus
        exact ⟨⟨r, hr⟩, us, hus⟩
      · rintro ⟨⟨r, hr⟩, us, hus⟩
        refine ⟨r.1 :: us, ?_⟩
        rw [callsAll, hr]
        show (callsAll ts >>= _) = _
        rw [hus]
        rfl
  rw [← hitems]
  constructor
  · rintro ⟨next, r, h⟩
    obtain ⟨us, hus, -⟩ := map_eq_ok h
    exact ⟨us, hus⟩
  · rintro ⟨us, hus⟩
    refine ⟨none, (.list () us, false), ?_⟩
    rw [calls, hus]
    rfl

end Settles

section Reading

variable [Scalar α]

theorem settles_negated {t : Term α} (h : Settles (negated t)) :
    Settles t ∧ (endsInCall t = true → endsInCall (negated t) = true) := by
  cases t with
  | literal l v => exact ⟨⟨none, _, rfl⟩, nofun⟩
  | _ => exact settles_negate h

/-- A list that is read as a factor, perhaps behind signs, is read as an atom. -/
theorem atom_of_list {R : Rule} {s r : List (Symbol α)} {t : Term α} {ts : List (Term α)} (h : Reads R s t r)
    (hR : R.splits = true) (ht : t = .list () ts) :
    ∃ p v, s = p ++ v ∧ (∀ y ∈ p, y = .plus) ∧ Reads .atom v (.list () ts) r := by
  induction h with
  | powerOne _ ih | signedOne _ ih => exact ih rfl ht
  | signedPlus _ ih =>
    obtain ⟨p, v, rfl, hp, hv⟩ := ih rfl ht
    exact ⟨.plus :: p, v, rfl, List.forall_mem_cons.mpr ⟨rfl, hp⟩, hv⟩
  | @signedMinus s t r h _ => cases t <;> cases ht
  | group h =>
    cases ht
    exact ⟨[], _, rfl, nofun, .group h⟩
  | number | name | infinity | powerMore => cases ht
  | _ => cases hR

omit [Scalar α] in
/-- What is derived ends as a factor ends. -/
theorem endsAtom_of_derives {R : Rule} {u : List (Symbol α)} (h : Derives R u) :
    ∃ v y, u = v ++ [y] ∧ y.endsAtom = true := by
  induction h with
  | sequenceOne _ ih | additiveOne _ ih | termOne _ ih | signedOne _ ih | powerOne _ ih | exponentOne _ ih
  | runOne _ ih | itemsOne _ ih => exact ih
  | number v => exact ⟨[], _, rfl, rfl⟩
  | name x => exact ⟨[], _, rfl, rfl⟩
  | infinity => exact ⟨[], _, rfl, rfl⟩
  | @group u _ _ => exact ⟨.opening :: u, _, rfl, rfl⟩
  | @signedMore x u _ _ ih | @exponentMore x u _ _ ih =>
    obtain ⟨v, y, rfl, hy⟩ := ih
    exact ⟨x :: v, y, rfl, hy⟩
  | @termBeside u _ _ _ _ ih | @runMore u _ _ _ _ ih =>
    obtain ⟨v, y, rfl, hy⟩ := ih
    exact ⟨u ++ v, y, by simp, hy⟩
  | @additiveMore u x _ _ _ _ _ ih | @termMore u x _ _ _ _ _ ih =>
    obtain ⟨v, y, rfl, hy⟩ := ih
    exact ⟨u ++ x :: v, y, by simp, hy⟩
  | @sequenceMore u _ _ _ _ ih | @itemsMore u _ _ _ _ ih =>
    obtain ⟨v, y, rfl, hy⟩ := ih
    exact ⟨u ++ .comma :: v, y, by simp, hy⟩
  | @powerMore u _ _ _ _ ih =>
    obtain ⟨v, y, rfl, hy⟩ := ih
    exact ⟨u ++ .caret :: v, y, by simp, hy⟩

theorem undivided_of_reads {R : Rule} {u s r : List (Symbol α)} {t : Term α} (h : Reads R s t r) (hs : s = u ++ r) :
    undivided u = true := by
  obtain ⟨v, hv, hderives⟩ := derives_of_reads h
  obtain rfl : v = u := (List.append_left_inj r).mp (hv.symm.trans hs)
  obtain ⟨w, y, rfl, hy⟩ := endsAtom_of_derives hderives
  exact undivided_behind_atom hy

/-! ## The variable of a call -/

/-- **What becomes of the variable of a call** behind the symbols `U` and in front of `W`, if `t` is read by a rule, up
to `r`, and its calls can be expanded. -/
inductive Met (R : Rule) (U W : List (Symbol α)) (t : Term α) (r : List (Symbol α)) : Prop
  /-- It is not reached. -/
  | ahead {U' : List (Symbol α)} : r = U' ++ .name expName :: W → Met R U W t r
  /-- It is the last factor, its list is still to come. -/
  | last : W = r → endsInCall t = true → undivided U = true → Met R U W t r
  /-- Its list has been read, and an exponent may follow only if the list is the last that was read. What reads no
  product has read something in front of the variable. -/
  | called {p s v : List (Symbol α)} {ts : List (Term α)} : W = p ++ s → (∀ y ∈ p, y = .star ∨ y = .plus) →
      Reads .atom s (.list () ts) v → r.length ≤ v.length → (v.head? = some .caret → v = r ∧ R ≠ .atom) →
      undivided U = true → (R.splits = true → ∃ y ∈ U, y.isSign = false) → Met R U W t r

section

variable {y : Symbol α} {s U W : List (Symbol α)}

omit [Scalar α] in
/-- Another symbol stands in front of a place. -/
theorem cons_eq_append {z : Symbol α} (h : y :: s = U ++ z :: W) (hy : y ≠ z) :
    ∃ U', U = y :: U' ∧ s = U' ++ z :: W := by
  match U, h with
  | [], h => exact absurd (List.cons.inj h).1 hy
  | x :: U, h =>
    obtain ⟨rfl, rfl⟩ := List.cons.inj h
    exact ⟨U, rfl, rfl⟩

/-- What is left in front of a place ends as what was there before. -/
theorem exists_front {R : Rule} {t : Term α} {r U' : List (Symbol α)} (h : Reads R s t r) (hs : s = U ++ W)
    (hr : r = U' ++ W) : ∃ u, U = u ++ U' := by
  obtain ⟨u, hu, -⟩ := derives_of_reads h
  refine ⟨u, (List.append_left_inj W).mp ?_⟩
  rw [List.append_assoc, ← hr, ← hu, hs]

end

namespace Met

variable {R R₁ R₂ : Rule} {s m r U W : List (Symbol α)} {t a b : Term α}

/-- A rule that reads what another rule reads. -/
theorem lift (hatom : R ≠ .atom) (hsplits : R.splits = true → R₁.splits = true) (h : Met R₁ U W t r) :
    Met R U W t r := by
  cases h with
  | ahead hr => exact .ahead hr
  | last hW ht hU => exact .last hW ht hU
  | called hW hp hs hle hcaret hU hfront =>
    exact .called hW hp hs hle (fun hv => ⟨(hcaret hv).1, hatom⟩) hU fun hR => hfront (hsplits hR)

/-- Two parts with `mid` between them. -/
theorem join (mid : List (Symbol α)) {op : BinaryOp} (hmid : mid = [] ∨ ∃ y, mid = [y] ∧ y ≠ .name expName)
    (hatom : R ≠ .atom) (hcaret : (mid ++ m).head? = some .caret → R₁ = .atom)
    (hmul : op = .mul → (∀ y ∈ mid, y = .star) ∧ R₂.splits = true ∧ R.splits = false)
    (hfront : ∀ u, s = u ++ (mid ++ m) → undivided (u ++ mid) = true ∨ op ≠ .mul ∧ R₂.splits = true)
    (hsplits : R.splits = true → R₁.splits = true ∧ ∃ y ∈ mid, y.isSign = false)
    (ha : Reads R₁ s a (mid ++ m)) (hb : Reads R₂ m b r) (hsettles : Settles (.binary () op a b))
    (iha : ∀ U, s = U ++ .name expName :: W → Settles a → Met R₁ U W a (mid ++ m))
    (ihb : ∀ U, m = U ++ .name expName :: W → Settles b → Met R₂ U W b r)
    (hs : s = U ++ .name expName :: W) : Met R U W (.binary () op a b) r := by
  obtain ⟨hsettlesa, hsettlesb, hcall, hlast⟩ := settles_binary hsettles
  obtain ⟨n, hn, -⟩ := derives_of_reads hb
  have hle : r.length ≤ (mid ++ m).length := by
    rw [hn]
    simp
    omega
  cases iha U hs hsettlesa with
  | @called p v w ts hW hp hv hlen hw hU hsigns =>
    refine .called hW hp hv (hle.trans hlen) (fun hhead => ?_) hU fun hR => hsigns (hsplits hR).1
    obtain ⟨rfl, hR₁⟩ := hw hhead
    exact absurd (hcaret hhead) hR₁
  | last hW hend hU =>
    -- the right operand is the list, perhaps behind signs
    obtain ⟨rfl, x, rfl⟩ := hcall hend
    obtain ⟨hstar, hR₂, hR⟩ := hmul rfl
    obtain ⟨p, v, rfl, hp, hv⟩ := atom_of_list hb hR₂ rfl
    refine .called (p := mid ++ p) (by rw [hW, List.append_assoc]) ?_ hv (Nat.le_refl _) (fun _ => ⟨rfl, hatom⟩) hU ?_
    · intro y hy
      exact (List.mem_append.mp hy).imp (hstar y) (hp y)
    · rw [hR]
      exact nofun
  | @ahead U₁ hr =>
    obtain ⟨U₂, rfl, hm⟩ : ∃ U₂, U₁ = mid ++ U₂ ∧ m = U₂ ++ .name expName :: W := by
      rcases hmid with rfl | ⟨y, rfl, hy⟩
      · exact ⟨U₁, rfl, hr⟩
      · exact cons_eq_append hr hy
    obtain ⟨u, rfl⟩ := exists_front ha hs hr
    have hread : s = u ++ (mid ++ m) := by
      rw [hs, hr]
      simp
    cases ihb U₂ hm hsettlesb with
    | ahead hr' => exact .ahead hr'
    | last hW hend hU₂ =>
      refine .last hW ?_ ?_
      · rw [hlast hend]
        exact hend
      · rw [← List.append_assoc]
        refine undivided_append hU₂ fun _ => ?_
        exact (hfront u hread).resolve_right fun h => h.1 (hlast hend)
    | called hW hp hv hlen hw hU₂ hsigns =>
      refine .called hW hp hv hlen (fun hhead => ⟨(hw hhead).1, hatom⟩) ?_ fun hR => ?_
      · rw [← List.append_assoc]
        refine undivided_append hU₂ fun hall => (hfront u hread).resolve_right fun h => ?_
        obtain ⟨y, hy, hsign⟩ := hsigns h.2
        exact Bool.false_ne_true (hsign.symm.trans (hall y hy))
      · obtain ⟨-, y, hy, hsign⟩ := hsplits hR
        exact ⟨y, by simp [hy], hsign⟩

/-- Behind a sign that makes `f t` of `t`. -/
theorem sign {y : Symbol α} (hy : y.isSign = true) {f : Term α → Term α}
    (hf : Settles (f t) → Settles t ∧ (endsInCall t = true → endsInCall (f t) = true))
    (ih : ∀ U, s = U ++ .name expName :: W → Settles t → Met R U W t r) (hsettles : Settles (f t))
    (hs : y :: s = U ++ .name expName :: W) : Met R U W (f t) r := by
  obtain ⟨hsettlest, hend⟩ := hf hsettles
  obtain ⟨U, rfl, hrest⟩ := cons_eq_append hs (by rintro rfl; cases hy)
  have hsign : ∀ z ∈ [y], z.isSign = true := List.forall_mem_singleton.mpr hy
  cases ih U hrest hsettlest with
  | ahead hr => exact .ahead hr
  | last hW ht hU => exact .last hW (hend ht) (undivided_append hU fun _ => undivided_of_signs hsign)
  | called hW hp hv hle hcaret hU hfront =>
    refine .called hW hp hv hle hcaret (undivided_append hU fun _ => undivided_of_signs hsign) fun hR => ?_
    obtain ⟨z, hz, hsign⟩ := hfront hR
    exact ⟨z, List.mem_cons_of_mem y hz, hsign⟩

/-- Behind the symbols `p` of the items in front. -/
theorem item (ts : List (Term α)) (p : List (Symbol α)) (hp : undivided p = true)
    (hsettles : Settles (.list () (ts ++ [t]))) (hs : Met .additive U W t r) :
    Met .items (p ++ U) W (.list () (ts ++ [t])) r := by
  cases hs with
  | ahead hr => exact .ahead hr
  | last hW ht hU =>
    obtain ⟨w, hw⟩ := settles_list.mp hsettles t (List.mem_append_right ts List.mem_cons_self)
    exact absurd ht (not_endsInCall hw)
  | called hW hq hv hle hcaret hU _ =>
    exact .called hW hq hv hle (fun hhead => ⟨(hcaret hhead).1, nofun⟩) (undivided_append hU fun _ => hp) nofun

/-- The items of a list in front of a comma, and the one behind it. -/
theorem joinItems {ts : List (Term α)} (ha : Reads .items s (.list () ts) (.comma :: m)) (hb : Reads .additive m t r)
    (iha : ∀ U, s = U ++ .name expName :: W → Settles (.list () ts) → Met .items U W (.list () ts) (.comma :: m))
    (ihb : ∀ U, m = U ++ .name expName :: W → Settles t → Met .additive U W t r)
    (hsettles : Settles (.list () (ts ++ [t]))) (hs : s = U ++ .name expName :: W) :
    Met .items U W (.list () (ts ++ [t])) r := by
  have hall := settles_list.mp hsettles
  have hfront : Settles (.list () ts) := settles_list.mpr fun u hu => hall u (List.mem_append_left [t] hu)
  cases iha U hs hfront with
  | last _ ht => cases ht
  | called hW hp hv hle hcaret hU _ =>
    obtain ⟨u, hu, -⟩ := derives_of_reads hb
    have hlen : r.length ≤ m.length := by
      rw [hu]
      simp
    refine .called hW hp hv (hlen.trans (Nat.le_of_succ_le hle)) (fun hhead => ?_) hU nofun
    obtain ⟨rfl, -⟩ := hcaret hhead
    cases hhead
  | ahead hr =>
    obtain ⟨U₂, rfl, hm⟩ := cons_eq_append hr nofun
    obtain ⟨u, rfl⟩ := exists_front ha hs hr
    obtain ⟨w, hw⟩ := hall t (List.mem_append_right ts List.mem_cons_self)
    have hcomma := Met.item ts (u ++ [.comma]) (undivided_behind rfl nofun nofun) hsettles (ihb U₂ hm ⟨none, w, hw⟩)
    rw [List.append_assoc] at hcomma
    exact hcomma

/-- In parentheses. -/
theorem group {ts : List (Term α)} (h : Met .items U W (.list () ts) (.closing :: r)) :
    Met .atom (.opening :: U) W (.list () ts) r := by
  cases h with
  | ahead hclosing =>
    obtain ⟨U', rfl, hr⟩ := cons_eq_append hclosing nofun
    exact .ahead hr
  | last _ ht => cases ht
  | called hW hp hv hle hcaret hU _ =>
    refine .called hW hp hv (Nat.le_of_succ_le hle) (fun hhead => ?_)
      (undivided_append (P := [.opening]) hU fun _ => rfl) fun _ => ⟨.opening, List.mem_cons_self, rfl⟩
    obtain ⟨rfl, -⟩ := hcaret hhead
    cases hhead

end Met

/-- **The variable of a call in what is read**, one case for every rule. -/
theorem met {R : Rule} {s r W : List (Symbol α)} {t : Term α} (h : Reads R s t r) :
    ∀ U, s = U ++ .name expName :: W → Settles t → Met R U W t r := by
  induction h with
  | sequenceOne _ ih | additiveOne _ ih | termOne _ ih | runOne _ ih | exponentOne _ _ ih =>
    exact fun U hs ht => (ih U hs ht).lift nofun nofun
  | signedOne _ ih | powerOne _ ih => exact fun U hs ht => (ih U hs ht).lift nofun fun _ => rfl
  | sequenceMore ha hb iha ihb =>
    exact fun U hs ht => .join [.comma] (.inr ⟨_, rfl, nofun⟩) nofun nofun nofun
      (fun u _ => .inl (undivided_behind rfl nofun nofun)) nofun ha hb ht iha ihb hs
  | @additiveMore s a y op b m r ha hop hb iha ihb =>
    have hmul : op ≠ .mul := by
      rintro rfl
      cases y <;> cases hop
    refine fun U hs ht => .join [y] (.inr ⟨y, rfl, ?_⟩) nofun (fun hhead => ?_) (fun h => absurd h hmul)
      (fun u hu => .inl ?_) nofun ha hb ht iha ihb hs
    · rintro rfl
      cases hop
    · obtain rfl := Option.some.inj hhead
      cases hop
    · refine undivided_append (undivided_of_signs (List.forall_mem_singleton.mpr (isSign_of_sumOp hop))) fun _ => ?_
      exact undivided_of_reads ha hu
  | @termMore s a y op b m r ha hop hb iha ihb =>
    refine fun U hs ht => .join [y] (.inr ⟨y, rfl, ?_⟩) nofun (fun hhead => ?_) (fun hmul => ?_)
      (fun u _ => ?_) nofun ha hb ht iha ihb hs
    · rintro rfl
      cases hop
    · obtain rfl := Option.some.inj hhead
      cases hop
    · subst hmul
      refine ⟨List.forall_mem_singleton.mpr ?_, rfl, rfl⟩
      cases y <;> first | rfl | cases hop
    · cases y with
      | star => exact .inl (undivided_behind rfl nofun nofun)
      | slash | percent =>
        cases hop
        exact .inr ⟨nofun, rfl⟩
      | _ => cases hop
  | termBeside ha hb iha ihb | runMore ha hb iha ihb =>
    refine fun U hs ht => .join [] (.inl rfl) nofun (fun hhead => ?_) (fun _ => ⟨nofun, rfl, rfl⟩)
      (fun u hu => .inl ?_) nofun ha hb ht iha ihb hs
    · obtain ⟨x, v, rfl, hx⟩ := startsAtom_of_reads hb rfl
      obtain rfl := Option.some.inj hhead
      cases hx
    · rw [List.append_nil]
      exact undivided_of_reads ha hu
  | powerMore ha hb iha ihb =>
    exact fun U hs ht => .join [.caret] (.inr ⟨_, rfl, nofun⟩) nofun (fun _ => rfl) nofun
      (fun u _ => .inl (undivided_behind rfl nofun nofun)) (fun _ => ⟨rfl, _, List.mem_cons_self, rfl⟩)
      ha hb ht iha ihb hs
  | signedMinus _ ih | exponentMinus _ ih => exact fun U hs ht => .sign rfl settles_negated ih ht hs
  | signedPlus _ ih | exponentPlus _ ih =>
    exact fun U hs ht => .sign (f := id) rfl (fun h => ⟨h, id⟩) ih ht hs
  | number | infinity =>
    intro U hs _
    obtain ⟨U', rfl, hr⟩ := cons_eq_append hs nofun
    exact .ahead hr
  | name f r =>
    intro U hs _
    match U, hs with
    | [], hs =>
      obtain ⟨hf, rfl⟩ := List.cons.inj hs
      cases hf
      exact .last rfl (beq_self_eq_true expName) rfl
    | y :: U, hs => exact .ahead (List.cons.inj hs).2
  | @group s ts r hitems ih =>
    intro U hs ht
    obtain ⟨U, rfl, hinner⟩ := cons_eq_append hs nofun
    exact (ih U hinner ht).group
  | itemsOne _ ih =>
    intro U hs ht
    obtain ⟨w, hw⟩ := settles_list.mp ht _ List.mem_cons_self
    exact Met.item [] [] rfl ht (ih U hs ⟨none, w, hw⟩)
  | itemsMore ha hb iha ihb => exact fun U hs ht => .joinItems ha hb iha ihb ht hs

/-- **Every call stands in a product and has its list behind it.** Signs aside, no `/` and no `%` stands in front;
perhaps behind a `*`, a list follows, and no exponent follows the list. -/
theorem called_of_calls {U W : List (Symbol α)} {t : Term α} {r : Term α × Bool}
    (h : Reads .sequence (U ++ .name expName :: W) t []) (ht : calls t none = .ok r) :
    undivided U = true ∧ ∃ p s v ts, W = p ++ s ∧ (∀ y ∈ p, y = .star ∨ y = .plus) ∧
      Reads .atom s (.list () ts) v ∧ v.head? ≠ some .caret := by
  cases met h U rfl ⟨none, r, ht⟩ with
  | ahead hr => exact absurd hr (by simp)
  | last _ hend => exact absurd hend (not_endsInCall ht)
  | @called p s v ts hW hp hs _ hcaret hU =>
    refine ⟨hU, p, s, v, ts, hW, hp, hs, fun hhead => ?_⟩
    obtain ⟨rfl, -⟩ := hcaret hhead
    cases hhead

end Reading

end SignalFlow.Reader
